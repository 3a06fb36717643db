import Xv6.Pipe.Lemmas

/-!
A pipe is a queue: what comes out is what went in, in the same order, however often the 32-bit counters have
wrapped around.
-/

namespace Xv6.Pipe

-- The history of the pipe: the bytes that all writes have stored, that all reads have taken out and that all reads
-- have returned.
structure Bytes where
  stored : List UInt8
  taken : List UInt8
  returned : List UInt8

-- What the call has stored in the buffer of its caller.
def Pc.addr : Pc → List UInt8
  | .copy _ _ addr => addr
  | .finish _ _ addr => addr
  | _ => []

theorem Pc.kill_addr (pc : Pc) : pc.kill.addr = pc.addr := by
  cases pc <;> rfl

theorem Pc.wakeup1_addr (chan : Chan) (pc : Pc) : (pc.wakeup1 chan).addr = pc.addr := by
  unfold Pc.wakeup1
  split
  . split <;> rfl
  . rfl

def Output.addr : Output → List UInt8
  | .none => []
  | .ret _ _ addr => addr

namespace State

variable {ι : Type}

-- The byte that a step stores.
def puts (s : State ι) : Event ι → List UInt8
  | .step p =>
    match s.pc p with
    | .loop (.write addr) i => if s.pipe.full then [] else addr[i]?.toList
    | _ => []
  | _ => []

-- The byte that a step copies to the caller of `piperead`.
def gets (s : State ι) : Event ι → List UInt8
  | .step p =>
    match s.pc p with
    | .copy n i _ => if i < n ∧ ¬ s.pipe.empty then [s.pipe.front] else []
    | _ => []
  | _ => []

-- The buffer that a step gives back.
def gives (s : State ι) : Event ι → List UInt8
  | .step p =>
    match s.pc p with
    | .finish _ _ addr => addr
    | _ => []
  | _ => []

def bytes (s : State ι) (e : Event ι) (_ : State ι) (h : Bytes) : Bytes where
  stored := h.stored ++ s.puts e
  taken := h.taken ++ s.gets e
  returned := h.returned ++ s.gives e

-- What the process that has the lock has in its buffer.
def pending (s : State ι) : List UInt8 :=
  match s.lock with
  | none => []
  | some p => (s.pc p).addr

end State

-- The ring holds the bytes from `taken` to `stored`.
structure Holds (p : Pipe) (h : Bytes) : Prop where
  nread : p.nread = .ofNat 32 h.taken.length
  nwrite : p.nwrite = .ofNat 32 h.stored.length
  le : h.taken.length ≤ h.stored.length
  room : h.stored.length ≤ h.taken.length + PIPESIZE
  front : h.taken = h.stored.take h.taken.length
  data : ∀ k b, h.taken.length ≤ k → h.stored[k]? = some b → p.data (index (.ofNat 32 k)) = b

namespace Holds

variable {p : Pipe} {h : Bytes}

theorem full_iff (hp : Holds p h) : p.full = true ↔ h.stored.length = h.taken.length + PIPESIZE := by
  have hle := hp.le
  have hroom := hp.room
  unfold full
  rw [decide_eq_true_eq, hp.nread, hp.nwrite, ← BitVec.ofNat_add, ← BitVec.toNat_inj, BitVec.toNat_ofNat,
    BitVec.toNat_ofNat]
  unfold PIPESIZE at *
  omega

theorem empty_iff (hp : Holds p h) : p.empty = true ↔ h.stored.length = h.taken.length := by
  have hle := hp.le
  have hroom := hp.room
  unfold empty
  rw [decide_eq_true_eq, hp.nread, hp.nwrite, ← BitVec.toNat_inj, BitVec.toNat_ofNat, BitVec.toNat_ofNat]
  unfold PIPESIZE at *
  omega

theorem eq_of_empty (hp : Holds p h) (hempty : p.empty = true) : h.taken = h.stored := by
  rw [hp.front, ← hp.empty_iff.mp hempty, List.take_length]

theorem of_returned (hp : Holds p h) (returned : List UInt8) : Holds p { h with returned := returned } :=
  ⟨hp.nread, hp.nwrite, hp.le, hp.room, hp.front, hp.data⟩

-- Two of the last `PIPESIZE` bytes are never in the same place.
theorem index_inj {j k : Nat} (h : index (.ofNat 32 j) = index (.ofNat 32 k)) (hjk : j ≤ k) (hlt : k < j + PIPESIZE)
    : j = k := by
  unfold index at h
  rw [Fin.mk.injEq, BitVec.toNat_ofNat, BitVec.toNat_ofNat] at h
  unfold PIPESIZE at *
  omega

theorem put (hp : Holds p h) (b : UInt8) (hfull : p.full = false)
    : Holds (p.put b) { h with stored := h.stored ++ [b] } := by
  have hle := hp.le
  have hroom : h.stored.length < h.taken.length + PIPESIZE := by
    have := hp.room
    have := mt hp.full_iff.mpr (by simp [hfull])
    omega
  constructor
  . exact hp.nread
  . show p.nwrite + 1 = _
    rw [hp.nwrite, List.length_append]
    exact (BitVec.ofNat_add ..).symm
  . simp only [List.length_append]
    omega
  . simp only [List.length_append, List.length_singleton]
    omega
  . show h.taken = (h.stored ++ [b]).take h.taken.length
    rw [List.take_append_of_le_length hle]
    exact hp.front
  . intro k b' hk hget
    show (if index (.ofNat 32 k) = index p.nwrite then b else p.data (index (.ofNat 32 k))) = b'
    rw [hp.nwrite]
    have hlt : k < h.stored.length + 1 := by
      have := (List.getElem?_eq_some_iff.mp hget).1
      simpa using this
    by_cases heq : k = h.stored.length
    . subst heq
      rw [if_pos rfl]
      simpa using hget
    . dsimp only at hk hget
      rw [if_neg]
      . apply hp.data k b' hk
        rwa [List.getElem?_append_left (by omega)] at hget
      . intro hindex
        exact heq (index_inj hindex (by omega) (by omega))

theorem drop (hp : Holds p h) (hempty : p.empty = false)
    : Holds p.drop { h with taken := h.taken ++ [p.front] } := by
  have hlt : h.taken.length < h.stored.length := by
    have := hp.le
    have := mt hp.empty_iff.mpr (by simp [hempty])
    omega
  have hroom := hp.room
  have hfront : p.front = h.stored[h.taken.length] := by
    unfold Pipe.front
    rw [hp.nread]
    exact hp.data _ _ (Nat.le_refl _) (List.getElem?_eq_getElem hlt)
  constructor
  . show p.nread + 1 = _
    rw [hp.nread, List.length_append]
    exact (BitVec.ofNat_add ..).symm
  . exact hp.nwrite
  . simp only [List.length_append, List.length_singleton]
    omega
  . simp only [List.length_append, List.length_singleton]
    omega
  . simp only [List.length_append, List.length_singleton]
    rw [List.take_add_one, List.getElem?_eq_getElem hlt, ← hp.front, hfront]
    rfl
  . intro k b hk hget
    apply hp.data k b _ hget
    simp only [List.length_append, List.length_singleton] at hk
    omega

end Holds

namespace State

variable {ι : Type} [DecidableEq ι] {s s' : State ι} {e : Event ι} {o : Output} {p : ι}

-- A read counts the bytes in its buffer, and one that has none so far has found the pipe closed or not empty.
def Ends (pipe : Pipe) : Pc → Prop
  | .copy n i addr => i = addr.length ∧ i ≤ n ∧ (i = 0 → pipe.empty = false ∨ pipe.writeopen = false)
  | .finish (.read n) r addr =>
    r = addr.length ∧ addr.length ≤ n ∧ (0 < n → r = 0 → pipe.empty = true ∧ pipe.writeopen = false)
  | .finish _ _ addr => addr = []
  | _ => True

structure Fifo (x : State ι × Bytes) : Prop where
  locks : x.1.Locks
  holds : Holds x.1.pipe x.2
  ends : ∀ p, Ends x.1.pipe (x.1.pc p)
  returned : x.2.taken = x.2.returned ++ x.1.pending

theorem Ends.of_not_holds {pipe : Pipe} {pc : Pc} (h : pc.holds = false) : Ends pipe pc := by
  cases pc <;> simp [Pc.holds] at h <;> trivial

theorem Ends.wakeup1 {pipe : Pipe} {pc : Pc} (h : Ends pipe pc) (chan : Chan) : Ends pipe (pc.wakeup1 chan) := by
  unfold Pc.wakeup1
  split
  . split <;> trivial
  . exact h

theorem Ends.kill {pipe : Pipe} {pc : Pc} (h : Ends pipe pc) : Ends pipe pc.kill := by
  cases pc <;> exact h

-- Only the process `p` moves, and it holds the lock if the pipe changes.
theorem ends_setPc {pipe : Pipe} {pc : Pc} (hs : s.Locks) (hends : ∀ q, Ends s.pipe (s.pc q))
    (hpipe : pipe = s.pipe ∨ (s.pc p).holds = true) (hpc : Ends pipe pc) (q : ι)
    : Ends pipe (if q = p then pc else s.pc q) := by
  split
  . exact hpc
  . next hq =>
    rcases hpipe with hpipe | hpipe
    . rw [hpipe]
      exact hends q
    . apply Ends.of_not_holds
      by_contra hholds
      rw [Bool.not_eq_false] at hholds
      exact hq (hs.eq_of_holds hholds hpipe)

variable [Fintype ι]

theorem step_ends (hs : s.Locks) (hends : ∀ q, Ends s.pipe (s.pc q)) (hstep : step s e = some (s', o)) (q : ι)
    : Ends s'.pipe (s'.pc q) := by
  cases step_cases hstep with
  | call p c => exact ends_setPc hs hends (.inl rfl) (by trivial) q
  | kill p =>
    rw [kill_pc]
    split
    . exact (hends q).kill
    . exact hends q
  | acquire p c i hp => exact ends_setPc hs hends (.inl rfl) (by trivial) q
  | writeEnd p addr i hp =>
    refine ends_setPc hs hends (.inl rfl) ?_ q
    exact rfl
  | giveUp p addr i b hp | block p addr i b hp => exact ends_setPc hs hends (.inl rfl) (by trivial) q
  | put p addr i b hp => exact ends_setPc hs hends (.inr (by rw [hp]; rfl)) (by trivial) q
  | readGiveUp p n i hp | readBlock p n i hp => exact ends_setPc hs hends (.inl rfl) (by trivial) q
  | readCopy p n i hp hgo =>
    refine ends_setPc hs hends (.inl rfl) ?_ q
    refine ⟨rfl, Nat.zero_le n, fun _ => ?_⟩
    simpa [Decidable.or_iff_not_imp_left] using hgo
  | take p n i addr hp hi =>
    have hcopy := hends p
    rw [hp] at hcopy
    refine ends_setPc hs hends (.inr (by rw [hp]; rfl)) ?_ q
    refine ⟨?_, hi, fun h => absurd h (Nat.succ_ne_zero i)⟩
    rw [List.length_append, ← hcopy.1]
    rfl
  | copyEnd p n i addr hp hend =>
    have hcopy := hends p
    rw [hp] at hcopy
    obtain ⟨hlen, hle, hgo⟩ := hcopy
    refine ends_setPc hs hends (.inl rfl) ?_ q
    refine ⟨congrArg Nat.cast hlen, hlen ▸ hle, fun hn hi => ?_⟩
    have hi : i = 0 := by omega
    have hempty : s.pipe.empty = true := by
      simpa [hi, hn] using hend
    rcases hgo hi with h | h
    . simp [hempty] at h
    . exact ⟨hempty, h⟩
  | close p w i hp =>
    refine ends_setPc hs hends (.inr (by rw [hp]; rfl)) ?_ q
    exact rfl
  | notify p c i hp =>
    rw [setPc_pc]
    split
    . trivial
    . exact (hends q).wakeup1 _
  | finish p c r addr hp =>
    rw [leave_pc]
    split
    . trivial
    . exact (hends q).wakeup1 _
  | sleepAcquire p c i hp | sleepRelease p c i hp | sleepSwitch p c i hp =>
    exact ends_setPc hs hends (.inl rfl) (by trivial) q

theorem step_holds {h : Bytes} (hp : Holds s.pipe h) (hstep : step s e = some (s', o))
    : Holds s'.pipe (s.bytes e s' h) := by
  have hsame : ∀ {t : State ι}, t.pipe = s.pipe → s.puts e = [] → s.gets e = [] → Holds t.pipe (s.bytes e t h) := by
    intro t ht hputs hgets
    unfold bytes
    rw [ht, hputs, hgets, List.append_nil, List.append_nil]
    exact hp.of_returned _
  cases step_cases hstep with
  | put p addr i b hpc hi hfull =>
    have hputs : s.puts (.step p) = [b] := by simp [puts, hpc, hfull, hi]
    have hgets : s.gets (.step p) = [] := by simp [gets, hpc]
    unfold bytes
    rw [hputs, hgets, List.append_nil]
    exact (hp.put b hfull).of_returned _
  | take p n i addr hpc hi hempty =>
    have hputs : s.puts (.step p) = [] := by simp [puts, hpc]
    have hgets : s.gets (.step p) = [s.pipe.front] := by simp [gets, hpc, hi, hempty]
    unfold bytes
    rw [hputs, hgets, List.append_nil]
    exact (hp.drop hempty).of_returned _
  | close p w i hpc =>
    have hclose : Holds (s.pipe.close w) h := by
      unfold Pipe.close
      split <;> exact ⟨hp.nread, hp.nwrite, hp.le, hp.room, hp.front, hp.data⟩
    have hputs : s.puts (.step p) = [] := by simp [puts, hpc]
    have hgets : s.gets (.step p) = [] := by simp [gets, hpc]
    unfold bytes
    rw [hputs, hgets, List.append_nil, List.append_nil]
    exact hclose.of_returned _
  | call p c => exact hsame rfl rfl rfl
  | kill p => exact hsame rfl rfl rfl
  | writeEnd p addr i hpc hi => exact hsame rfl (by simp [puts, hpc, hi]) (by simp [gets, hpc])
  | giveUp p addr i b hpc hi hfull => exact hsame rfl (by simp [puts, hpc, hfull]) (by simp [gets, hpc])
  | block p addr i b hpc hi hfull => exact hsame rfl (by simp [puts, hpc, hfull]) (by simp [gets, hpc])
  | copyEnd p n i addr hpc hend => exact hsame rfl (by simp [puts, hpc]) (by simpa [gets, hpc] using hend)
  | readGiveUp p n i hpc | readBlock p n i hpc | readCopy p n i hpc =>
    exact hsame rfl (by simp [puts, hpc]) (by simp [gets, hpc])
  | acquire p c i hpc | notify p c i hpc | finish p c r addr hpc | sleepAcquire p c i hpc | sleepRelease p c i hpc
    | sleepSwitch p c i hpc => exact hsame rfl (by simp [puts, hpc]) (by simp [gets, hpc])

omit [DecidableEq ι] [Fintype ι] in
theorem pending_of_holds (hs : s.Locks) (hp : (s.pc p).holds = true) : s.pending = (s.pc p).addr := by
  unfold pending
  rw [(hs.lock p).mpr hp]

omit [DecidableEq ι] [Fintype ι] in
theorem pending_of_free {t : State ι} (ht : t.lock = none) : t.pending = [] := by
  unfold pending
  rw [ht]

omit [DecidableEq ι] [Fintype ι] in
theorem pending_of_lock {t : State ι} {pc : Pc} (ht : t.lock = some p) (hp : t.pc p = pc) : t.pending = pc.addr := by
  unfold pending
  rw [ht, ← hp]

omit [DecidableEq ι] [Fintype ι] in
theorem pending_congr {t : State ι} (hlock : t.lock = s.lock) (hpc : ∀ q, (t.pc q).addr = (s.pc q).addr)
    : t.pending = s.pending := by
  unfold pending
  rw [hlock]
  split
  . rfl
  . exact hpc _

omit [Fintype ι] in
theorem pending_setPc {t : State ι} {pc : Pc} (hlock : t.lock = s.lock) (hpc : ∀ q, t.pc q = if q = p then pc else s.pc q)
    (haddr : pc.addr = (s.pc p).addr)
    : t.pending = s.pending := by
  apply pending_congr hlock
  intro q
  rw [hpc]
  split
  . next hq => rw [hq, haddr]
  . rfl

-- What is taken out of the pipe is in the buffer of a process until it is given back.
theorem step_pending (hs : s.Locks) (hstep : step s e = some (s', o))
    : s.pending ++ s.gets e = s.gives e ++ s'.pending := by
  have hsame : s.gets e = [] → s.gives e = [] → s'.pending = s.pending →
      s.pending ++ s.gets e = s.gives e ++ s'.pending := by
    intro hgets hgives hpending
    rw [hgets, hgives, hpending, List.append_nil, List.nil_append]
  have hholds : ∀ {p pc}, s.pc p = pc → pc.holds = true → s.pending = pc.addr := by
    rintro p pc rfl hpc
    exact pending_of_holds hs hpc
  have hlock : ∀ {p pc}, s.pc p = pc → pc.holds = true → s.lock = some p := by
    rintro p pc rfl hpc
    exact (hs.lock p).mpr hpc
  cases step_cases hstep with
  | call p c hp => exact hsame rfl rfl (pending_setPc rfl (fun _ => rfl) (by rw [hp]; rfl))
  | kill p =>
    refine hsame rfl rfl (pending_congr rfl fun q => ?_)
    rw [kill_pc]
    split
    . exact Pc.kill_addr _
    . rfl
  | acquire p c i hp hfree =>
    apply hsame (by simp [gets, hp]) (by simp [gives, hp])
    rw [pending_of_free hfree]
    have hpc : { s.setPc p (.loop c i) with lock := some p }.pc p = .loop c i := if_pos rfl
    exact pending_of_lock rfl hpc
  | take p n i addr hp hi hempty =>
    have hgets : s.gets (.step p) = [s.pipe.front] := by simp [gets, hp, hi, hempty]
    have hgives : s.gives (.step p) = [] := by simp [gives, hp]
    rw [hgets, hgives, hholds hp rfl, List.nil_append]
    have hpc : ((s.setPipe s.pipe.drop).setPc p (.copy n (i + 1) (addr ++ [s.pipe.front]))).pc p =
        .copy n (i + 1) (addr ++ [s.pipe.front]) := if_pos rfl
    exact (pending_of_lock (t := (s.setPipe s.pipe.drop).setPc p _) (hlock hp rfl) hpc).symm
  | copyEnd p n i addr hp hend =>
    exact hsame (by simpa [gets, hp] using hend) (by simp [gives, hp])
      (pending_setPc rfl (fun _ => rfl) (by rw [hp]; rfl))
  | notify p c i hp =>
    refine hsame (by simp [gets, hp]) (by simp [gives, hp]) (pending_congr rfl fun q => ?_)
    rw [setPc_pc]
    split
    . next hq =>
      rw [hq, hp]
      rfl
    . exact Pc.wakeup1_addr _ _
  | finish p c r addr hp =>
    have hgets : s.gets (.step p) = [] := by simp [gets, hp]
    have hgives : s.gives (.step p) = addr := by simp [gives, hp]
    rw [hgets, hgives, hholds hp rfl, pending_of_free rfl]
    rfl
  | giveUp p addr i b hp | readGiveUp p n i hp | sleepRelease p c i hp =>
    apply hsame (by simp [gets, hp]) (by simp [gives, hp])
    rw [hholds hp rfl]
    exact pending_of_free rfl
  | writeEnd p addr i hp | block p addr i b hp | put p addr i b hp | readBlock p n i hp | readCopy p n i hp
    | close p w i hp | sleepAcquire p c i hp | sleepSwitch p c i hp =>
    exact hsame (by simp [gets, hp]) (by simp [gives, hp]) (pending_setPc rfl (fun _ => rfl) (by rw [hp]; rfl))

theorem gives_eq (hstep : step s e = some (s', o)) : s.gives e = o.addr := by
  cases step_cases hstep with
  | call p c | kill p => rfl
  | _ => simp_all [gives, Output.addr]

theorem finish_of_ret {n : Nat} {r : Int} {addr : List UInt8} (h : step s e = some (s', .ret (.read n) r addr))
    : ∃ p, e = .step p ∧ (s.pc p = .finish (.read n) r addr ∨ s.killed p = true ∧ r = -1 ∧ addr = []) := by
  have h := step_cases h
  generalize ho : Output.ret (.read n) r addr = o at h
  cases h with
  | finish p c r' addr' hp =>
    simp only [Output.ret.injEq] at ho
    obtain ⟨rfl, rfl, rfl⟩ := ho
    exact ⟨p, rfl, .inl hp⟩
  | readGiveUp p n' i hp hempty hopen hkilled =>
    simp only [Output.ret.injEq] at ho
    exact ⟨p, rfl, .inr ⟨hkilled, ho.2⟩⟩
  | _ => simp at ho

/--
What a step of the pipe owes. The queue is in order and within its bounds. What a step gives back to its caller counts
as returned, and while nobody has the lock all that has been taken out of the pipe has been returned. A read that does
not end because it is killed returns the number of bytes that it gives back, and no read ends early.
-/
structure Queues (x : State ι × Bytes) (e : Event ι) (o : Output) (x' : State ι × Bytes) : Prop where
  front : x'.2.taken <+: x'.2.stored
  room : x'.2.taken.length ≤ x'.2.stored.length ∧ x'.2.stored.length ≤ x'.2.taken.length + PIPESIZE
  returned : x'.2.returned = x.2.returned ++ o.addr ∧ x'.2.returned <+: x'.2.taken
  lossless : x'.1.lock = none → x'.2.returned = x'.2.taken
  reads : ∀ n r addr, o = .ret (.read n) r addr →
    r = addr.length ∧ addr.length ≤ n ∨ r = -1 ∧ addr = [] ∧ ∃ p, e = .step p ∧ x.1.killed p = true
  ends : ∀ n addr, 0 < n → o = .ret (.read n) 0 addr → x.1.pipe.writeopen = false ∧ x.2.taken = x.2.stored

end State

end Xv6.Pipe
