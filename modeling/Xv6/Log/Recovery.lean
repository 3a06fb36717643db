import Xv6.Log.Lemmas

/-!
A crash at any moment leaves the home blocks, once the log has been recovered, as the operations of the committed groups
have made them.
-/

namespace Xv6.Log

variable {β : Type}

structure Write (β : Type) where
  op : Nat
  block : Nat
  val : β

-- All calls of `log_write`, the operations that have begun since the last commit or crash, and those of the groups
-- whose header is on the disk or that had nothing to write.
structure History (β : Type) where
  trace : List (Write β)
  group : List Nat
  committed : List Nat

def History.empty : History β where
  trace := []
  group := []
  committed := []

-- Behind `log.committing = 1`.
def Pc.commits : Pc → Bool
  | .writeLog _ | .writeHead | .install _ | .clearHead | .leave => true
  | _ => false

-- What happens while the machine comes up again.
def Event.recovers : Event β → Bool
  | .advance | .crash => true
  | _ => false

-- In `recover_from_log` or just behind it.
def Pc.recovers : Pc → Bool
  | .ready | .down | .recover _ | .clearLog => true
  | _ => false

def replay (home : Nat → β) (ws : List (Write β)) : Nat → β :=
  ws.foldl (fun f w => update f w.block w.val) home

-- What the operations `ops` have made of the home blocks.
def History.view (h : History β) (home : Nat → β) (ops : List Nat) : Nat → β :=
  replay home (h.trace.filter fun w => w.op ∈ ops)

namespace State

def record (s : State β) (e : Event β) (s' : State β) (h : History β) : History β :=
  match e with
  | .begin_op => { h with group := h.group ++ [s.next] }
  | .log_write op b v => if s'.pc = .halted then h else { h with trace := h.trace ++ [⟨op, b, v⟩] }
  | .end_op _ => h
  | .advance =>
    if s.pc = .writeHead ∨ s.pc = .leave then { h with group := [], committed := h.committed ++ h.group } else h
  | .crash => { h with group := [] }

variable {s s' : State β} {h h' : History β} {e : Event β} {o : Output} {V M home : Nat → β} {size : Nat}

-- Recovery makes `V` of the disk.
structure Safe (V : Nat → β) (disk : Disk β) : Prop where
  log : ∀ j b, disk.head[j]? = some b → disk.log j = V b
  home : ∀ b, b ∉ disk.head → disk.home b = V b

-- `V` is what has been committed, and `M` has the writes of the running group as well.
def Phase (V M : Nat → β) (s : State β) : Prop :=
  match s.pc with
  | .ready => s.disk.head = [] ∧ s.mem = M ∧ ∀ b, b ∉ s.lh → M b = V b
  | .writeLog i =>
    s.disk.head = [] ∧ s.mem = M ∧ (∀ b, b ∉ s.lh → M b = V b) ∧ ∀ j b, j < i → s.lh[j]? = some b → s.disk.log j = M b
  | .writeHead =>
    s.disk.head = [] ∧ s.mem = M ∧ (∀ b, b ∉ s.lh → M b = V b) ∧ ∀ j b, s.lh[j]? = some b → s.disk.log j = M b
  | .install i => s.disk.head = s.lh ∧ s.mem = V ∧ M = V ∧ ∀ j b, j < i → s.lh[j]? = some b → s.disk.home b = V b
  | .clearHead => s.lh = [] ∧ s.mem = V ∧ M = V ∧ s.disk.home = V
  | .leave => s.disk.head = [] ∧ s.lh = [] ∧ s.mem = V ∧ M = V
  | .down => s.mem = s.disk.home ∧ M = V
  | .recover i =>
    s.disk.head = s.lh ∧ s.mem = s.disk.home ∧ M = V ∧ ∀ j b, j < i → s.lh[j]? = some b → s.disk.home b = V b
  | .clearLog => s.lh = [] ∧ s.mem = V ∧ M = V ∧ s.disk.home = V
  | .halted => True

-- Who is in an operation.
structure Counted (s : State β) (h : History β) : Prop where
  active : s.active.length = s.outstanding
  committing : s.pc ≠ .halted → s.committing = s.pc.commits
  idle : s.pc ≠ .ready → s.pc ≠ .halted → s.active = []
  mem_group : ∀ op ∈ s.active, op ∈ h.group
  lt : ∀ op ∈ h.committed ++ h.group, op < s.next
  trace_lt : ∀ w ∈ h.trace, w.op < s.next
  apart : ∀ op ∈ h.group, op ∉ h.committed

structure Consistent (home : Nat → β) (x : State β × History β) : Prop where
  counted : Counted x.1 x.2
  safe : Safe (x.2.view home x.2.committed) x.1.disk
  phase : Phase (x.2.view home x.2.committed) (x.2.view home (x.2.committed ++ x.2.group)) x.1

theorem Counted.crash (hx : Counted s h) : Counted s.crash { h with group := [] } where
  active := rfl
  committing := fun _ => rfl
  idle := fun _ _ => rfl
  mem_group := by simp [State.crash]
  lt := by
    intro op hop
    rw [List.append_nil] at hop
    exact hx.lt op (List.mem_append_left _ hop)
  trace_lt := hx.trace_lt
  apart := by simp

theorem Counted.ready (hx : Counted s h) (hup : s.pc.up = true) (hcom : s.committing = false) : s.pc = .ready := by
  have := hx.committing
  cases hpc : s.pc <;> simp_all [Pc.up, Pc.commits]

theorem Counted.ready_of_mem (hx : Counted s h) (hup : s.pc.up = true) {op : Nat} (hop : op ∈ s.active)
    : s.pc = .ready := by
  by_contra hpc
  have := hx.idle hpc (by rintro heq; rw [heq] at hup; cases hup)
  rw [this] at hop
  cases hop

theorem Counted.begin (hx : Counted s h) (hpc : s.pc = .ready)
    : Counted { s with outstanding := s.outstanding + 1, active := s.next :: s.active, next := s.next + 1 }
        { h with group := h.group ++ [s.next] } where
  active := by simp [hx.active]
  committing := hx.committing
  idle := fun hne => absurd hpc hne
  mem_group := by
    intro op hop
    rw [List.mem_append, List.mem_singleton]
    rcases List.mem_cons.mp hop with rfl | hop
    . exact .inr rfl
    . exact .inl (hx.mem_group op hop)
  lt := by
    intro op hop
    rw [← List.append_assoc, List.mem_append, List.mem_singleton] at hop
    rcases hop with hop | rfl
    . exact Nat.lt_succ_of_lt (hx.lt op hop)
    . exact Nat.lt_succ_self _
  trace_lt := fun w hw => Nat.lt_succ_of_lt (hx.trace_lt w hw)
  apart := by
    intro op hop hcom
    rcases List.mem_append.mp hop with hop | hop
    . exact hx.apart op hop hcom
    . rw [List.mem_singleton.mp hop] at hcom
      exact absurd (hx.lt _ (List.mem_append_left _ hcom)) (Nat.lt_irrefl _)

theorem Counted.move (hx : Counted s h) (hcom : s'.pc ≠ .halted → s'.committing = s'.pc.commits) (hactive : s'.active = [])
    (hout : s'.outstanding = 0) (hnext : s'.next = s.next)
    : Counted s' h := by
  constructor
  . rw [hactive, hout]
    rfl
  . exact hcom
  . intro _ _
    exact hactive
  . rw [hactive]
    simp
  . rw [hnext]
    exact hx.lt
  . rw [hnext]
    exact hx.trace_lt
  . exact hx.apart

theorem Counted.commit (hx : Counted s h) (hactive : s.active = [])
    : Counted s { h with group := [], committed := h.committed ++ h.group } := by
  refine ⟨hx.active, hx.committing, hx.idle, ?_, ?_, hx.trace_lt, by simp⟩
  . rw [hactive]
    simp
  . intro op hop
    rw [List.append_nil] at hop
    exact hx.lt op hop

theorem Counted.write (hx : Counted s h) {op b : Nat} (v : β) (hop : op ∈ s.active)
    : Counted (s.noted b v) { h with trace := h.trace ++ [⟨op, b, v⟩] } := by
  refine ⟨hx.active, hx.committing, hx.idle, hx.mem_group, hx.lt, ?_, hx.apart⟩
  intro w hw
  rcases List.mem_append.mp hw with hw | hw
  . exact hx.trace_lt w hw
  . rw [List.mem_singleton.mp hw]
    exact hx.lt op (List.mem_append_right _ (hx.mem_group op hop))

theorem Counted.ended (hx : Counted s h) {op : Nat} (hop : op ∈ s.active) (hpc : s.pc = .ready) : Counted (s.ended op) h := by
  refine ⟨?_, hx.committing, fun hne => absurd hpc hne, ?_, hx.lt, hx.trace_lt, hx.apart⟩
  . rw [State.ended, List.length_erase_of_mem hop, hx.active]
  . intro op' hop'
    exact hx.mem_group op' (List.mem_of_mem_erase hop')

theorem Counted.halted (hx : Counted s h) : Counted { s with pc := .halted } h :=
  ⟨hx.active, fun hne => absurd rfl hne, fun _ hne => absurd rfl hne, hx.mem_group, hx.lt, hx.trace_lt, hx.apart⟩

theorem step_counted (hx : Counted s h) (hstep : Step size s e o s') : Counted s' (record s e s' h) := by
  have hadvance : ∀ hne : s.pc ≠ .ready, s.pc ≠ .halted → s.active = [] ∧ s.outstanding = 0 := by
    intro hready hhalted
    have hactive := hx.idle hready hhalted
    refine ⟨hactive, ?_⟩
    rw [← hx.active, hactive]
    rfl
  cases hstep with
  | begin hup hcom hroom => exact hx.begin (hx.ready hup hcom)
  | tooBig op b v hup hop hbig =>
    simp only [record, if_pos]
    exact hx.halted
  | outside op b v hup hop hbig hout =>
    simp only [record, if_pos]
    exact hx.halted
  | write op b v hup hop hbig hout =>
    have hpc : (s.noted b v).pc ≠ .halted := by
      rw [State.noted, hx.ready_of_mem hup hop]
      simp
    simp only [record, if_neg hpc]
    exact hx.write v hop
  | endPanic op hup hop hcom => exact (hx.ended hop (hx.ready_of_mem hup hop)).halted
  | endCommit op hup hop hcom hout =>
    have hended := hx.ended hop (hx.ready_of_mem hup hop)
    have hactive : (s.ended op).active = [] := by
      apply List.eq_nil_of_length_eq_zero
      rw [hended.active]
      exact hout
    apply hended.move
    . intro _
      dsimp only
      split <;> rfl
    . exact hactive
    . exact hout
    . rfl
  | endOp op hup hop hcom hout => exact hx.ended hop (hx.ready_of_mem hup hop)
  | writeHead hpc =>
    obtain ⟨hactive, hout⟩ := hadvance (by simp [hpc]) (by simp [hpc])
    have hcom := hx.committing (by simp [hpc])
    simp only [record, hpc, true_or, if_true]
    apply Counted.commit (h := h)
    . exact hx.move (fun _ => by simp [hcom, hpc, Pc.commits]) hactive hout rfl
    . exact hactive
  | leave hpc =>
    obtain ⟨hactive, hout⟩ := hadvance (by simp [hpc]) (by simp [hpc])
    simp only [record, hpc, or_true, if_true]
    apply Counted.commit (h := h)
    . exact hx.move (fun _ => rfl) hactive hout rfl
    . exact hactive
  | crash => exact hx.crash
  | writeLog i b hpc | writeLogEnd i hpc | install i b hpc | installEnd i hpc | clearHead hpc | readHead hpc | recover i b hpc
  | recoverEnd i hpc | clearLog hpc =>
    obtain ⟨hactive, hout⟩ := hadvance (by simp [hpc]) (by simp [hpc])
    have hcom := hx.committing (by simp [hpc])
    simp only [record, hpc, reduceCtorEq, or_self, if_false]
    exact hx.move (fun _ => by simp [State.install, hcom, hpc, Pc.commits]) hactive hout rfl

theorem History.view_congr {ops ops' : List Nat} (hops : ∀ w ∈ h.trace, w.op ∈ ops ↔ w.op ∈ ops')
    : h.view home ops = h.view home ops' := by
  unfold History.view
  rw [List.filter_congr]
  intro w hw
  rw [decide_eq_decide]
  exact hops w hw

theorem History.view_write (h : History β) (w : Write β) (home : Nat → β) (ops : List Nat)
    : History.view { h with trace := h.trace ++ [w] } home ops =
      if w.op ∈ ops then update (h.view home ops) w.block w.val else h.view home ops := by
  unfold History.view replay
  dsimp only
  rw [List.filter_append, List.foldl_append]
  by_cases hop : w.op ∈ ops
  . simp [hop]
  . simp [hop]

theorem update_self (f : Nat → β) (b : Nat) (v : β) : update f b v b = v :=
  if_pos rfl

theorem update_of_ne (f : Nat → β) {b c : Nat} (v : β) (hne : c ≠ b) : update f b v c = f c :=
  if_neg hne

theorem update_eq_self {f : Nat → β} {b : Nat} {v : β} (hv : f b = v) : update f b v = f := by
  funext c
  unfold update
  split
  . next hc => rw [hc, hv]
  . rfl

theorem Safe.install (hsafe : Safe V s.disk) {i b : Nat} {pc : Pc} (hb : s.lh[i]? = some b) (hhead : s.disk.head = s.lh)
    : Safe V (s.install i b pc).disk where
  log := hsafe.log
  home := by
    intro c hc
    have hne : c ≠ b := by
      rintro rfl
      exact hc (hhead ▸ List.mem_of_getElem? hb)
    dsimp only [State.install]
    rw [update_of_ne _ _ hne]
    exact hsafe.home c hc

theorem Safe.installed (hsafe : Safe V s.disk) {i b : Nat} {pc : Pc} (hb : s.lh[i]? = some b)
    (hhead : s.disk.head = s.lh) (hhome : ∀ j c, j < i → s.lh[j]? = some c → s.disk.home c = V c)
    : ∀ j c, j < i + 1 → s.lh[j]? = some c → (s.install i b pc).disk.home c = V c := by
  intro j c hj hc
  dsimp only [State.install]
  by_cases hcb : c = b
  . rw [hcb, update_self]
    exact hsafe.log i b (by rw [hhead, hb])
  . rw [update_of_ne _ _ hcb]
    apply hhome j c _ hc
    have : j ≠ i := by
      rintro rfl
      rw [hb] at hc
      exact hcb (Option.some.inj hc).symm
    omega

theorem Safe.done (hsafe : Safe V s.disk) {i : Nat} (hi : s.lh[i]? = none) (hhead : s.disk.head = s.lh)
    (hhome : ∀ j c, j < i → s.lh[j]? = some c → s.disk.home c = V c)
    : s.disk.home = V := by
  funext c
  by_cases hc : c ∈ s.disk.head
  . obtain ⟨j, hj⟩ := List.mem_iff_getElem?.mp (hhead ▸ hc)
    have := List.getElem?_eq_none_iff.mp hi
    have := (List.getElem?_eq_some_iff.mp hj).1
    exact hhome j c (by omega) hj
  . exact hsafe.home c hc

theorem Safe.cleared {disk : Disk β} (hlh : s.lh = []) (hhome : disk.home = V) : Safe V { disk with head := s.lh } where
  log := by simp [hlh]
  home := by
    intro b _
    rw [← hhome]

-- A step of `commit` or of the recovery, which commits if it writes the header.
theorem advance_phase (hsafe : Safe V s.disk) (hphase : Phase V M s) (hstep : Step size s .advance o s')
    : ∃ V', (s.pc = .writeHead ∨ s.pc = .leave → V' = M) ∧ (¬ (s.pc = .writeHead ∨ s.pc = .leave) → V' = V) ∧
      Safe V' s'.disk ∧ Phase V' M s' := by
  have hV : ¬ (s.pc = .writeHead ∨ s.pc = .leave) → Safe V s'.disk ∧ Phase V M s' →
      ∃ V', (s.pc = .writeHead ∨ s.pc = .leave → V' = M) ∧ (¬ (s.pc = .writeHead ∨ s.pc = .leave) → V' = V) ∧
        Safe V' s'.disk ∧ Phase V' M s' :=
    fun hne hres => ⟨V, fun h => absurd h hne, fun _ => rfl, hres⟩
  have hM : (s.pc = .writeHead ∨ s.pc = .leave) → Safe M s'.disk ∧ Phase M M s' →
      ∃ V', (s.pc = .writeHead ∨ s.pc = .leave → V' = M) ∧ (¬ (s.pc = .writeHead ∨ s.pc = .leave) → V' = V) ∧
        Safe V' s'.disk ∧ Phase V' M s' :=
    fun heq hres => ⟨M, fun _ => rfl, fun hne => absurd heq hne, hres⟩
  unfold Phase at hphase
  cases hstep with
  | writeLog i b hpc hb =>
    rw [hpc] at hphase
    obtain ⟨hhead, hmem, hnew, hlog⟩ := hphase
    apply hV (by simp [hpc])
    refine ⟨⟨fun j c hc => ?_, hsafe.home⟩, hhead, hmem, hnew, fun j c hj hc => ?_⟩
    . rw [hhead] at hc
      simp at hc
    . dsimp only at hc ⊢
      rcases Nat.lt_succ_iff_lt_or_eq.mp hj with hlt | rfl
      . rw [update_of_ne _ _ (by omega)]
        exact hlog j c hlt hc
      . rw [hb] at hc
        rw [update_self, hmem, Option.some.inj hc]
  | writeLogEnd i hpc hb =>
    rw [hpc] at hphase
    obtain ⟨hhead, hmem, hnew, hlog⟩ := hphase
    apply hV (by simp [hpc])
    refine ⟨hsafe, hhead, hmem, hnew, fun j c hc => hlog j c ?_ hc⟩
    have := List.getElem?_eq_none_iff.mp hb
    have := (List.getElem?_eq_some_iff.mp hc).1
    dsimp only at this
    omega
  | writeHead hpc =>
    rw [hpc] at hphase
    obtain ⟨hhead, hmem, hnew, hlog⟩ := hphase
    apply hM (by simp [hpc])
    refine ⟨⟨hlog, fun b hb => ?_⟩, rfl, hmem, rfl, fun j c hj => absurd hj (Nat.not_lt_zero j)⟩
    rw [hnew b hb]
    exact hsafe.home b (by simp [hhead])
  | install i b hpc hb =>
    rw [hpc] at hphase
    obtain ⟨hhead, hmem, hM, hhome⟩ := hphase
    have hval := hsafe.log i b (by rw [hhead, hb])
    apply hV (by simp [hpc])
    refine ⟨hsafe.install hb hhead, hhead, ?_, hM, hsafe.installed hb hhead hhome⟩
    dsimp only [State.install]
    rw [hmem, hval]
    exact update_eq_self rfl
  | installEnd i hpc hb =>
    rw [hpc] at hphase
    obtain ⟨hhead, hmem, hM, hhome⟩ := hphase
    apply hV (by simp [hpc])
    exact ⟨hsafe, rfl, hmem, hM, hsafe.done hb hhead hhome⟩
  | clearHead hpc =>
    rw [hpc] at hphase
    obtain ⟨hlh, hmem, hM, hhome⟩ := hphase
    apply hV (by simp [hpc])
    exact ⟨.cleared hlh hhome, hlh, hlh, hmem, hM⟩
  | leave hpc =>
    rw [hpc] at hphase
    obtain ⟨hhead, hlh, hmem, rfl⟩ := hphase
    apply hM (by simp [hpc])
    exact ⟨hsafe, hhead, hmem, fun _ _ => rfl⟩
  | readHead hpc =>
    rw [hpc] at hphase
    obtain ⟨hmem, hM⟩ := hphase
    apply hV (by simp [hpc])
    exact ⟨hsafe, rfl, hmem, hM, fun j c hj => absurd hj (Nat.not_lt_zero j)⟩
  | recover i b hpc hb =>
    rw [hpc] at hphase
    obtain ⟨hhead, hmem, hM, hhome⟩ := hphase
    apply hV (by simp [hpc])
    refine ⟨hsafe.install hb hhead, hhead, ?_, hM, hsafe.installed hb hhead hhome⟩
    dsimp only [State.install]
    rw [hmem]
  | recoverEnd i hpc hb =>
    rw [hpc] at hphase
    obtain ⟨hhead, hmem, hM, hhome⟩ := hphase
    have hdone := hsafe.done hb hhead hhome
    apply hV (by simp [hpc])
    exact ⟨hsafe, rfl, hmem.trans hdone, hM, hdone⟩
  | clearLog hpc =>
    rw [hpc] at hphase
    obtain ⟨hlh, hmem, hM, hhome⟩ := hphase
    apply hV (by simp [hpc])
    refine ⟨.cleared hlh hhome, hlh, hmem.trans hM.symm, fun b _ => by rw [hM]⟩

theorem Consistent.halted (hx : Consistent home (s, h)) : Consistent home ({ s with pc := .halted }, h) where
  counted := hx.counted.halted
  safe := hx.safe
  phase := trivial

theorem Consistent.crash (hx : Consistent home (s, h)) : Consistent home (s.crash, { h with group := [] }) where
  counted := hx.counted.crash
  safe := hx.safe
  phase := by
    refine ⟨rfl, ?_⟩
    rw [List.append_nil]

theorem Consistent.ready_phase (hx : Consistent home (s, h)) (hpc : s.pc = .ready)
    : s.disk.head = [] ∧ s.mem = h.view home (h.committed ++ h.group) ∧
      ∀ b, b ∉ s.lh → h.view home (h.committed ++ h.group) b = h.view home h.committed b := by
  have := hx.phase
  unfold Phase at this
  rw [hpc] at this
  exact this

theorem Consistent.begin (hx : Consistent home (s, h)) (hpc : s.pc = .ready)
    : Consistent home
        ({ s with outstanding := s.outstanding + 1, active := s.next :: s.active, next := s.next + 1 },
          { h with group := h.group ++ [s.next] }) where
  counted := hx.counted.begin hpc
  safe := hx.safe
  phase := by
    have hview : History.view { h with group := h.group ++ [s.next] } home (h.committed ++ (h.group ++ [s.next])) =
        h.view home (h.committed ++ h.group) := by
      apply History.view_congr (h := h)
      intro w hw
      have : w.op < s.next := hx.counted.trace_lt w hw
      rw [← List.append_assoc, List.mem_append, List.mem_singleton, or_iff_left (by omega)]
    dsimp only
    rw [hview]
    unfold Phase
    simp only [hpc]
    exact hx.ready_phase hpc

theorem Consistent.write (hx : Consistent home (s, h)) {op b : Nat} (v : β) (hop : op ∈ s.active) (hpc : s.pc = .ready)
    : Consistent home (s.noted b v, { h with trace := h.trace ++ [⟨op, b, v⟩] }) := by
  have hgroup := hx.counted.mem_group op hop
  have hold : History.view { h with trace := h.trace ++ [⟨op, b, v⟩] } home h.committed = h.view home h.committed := by
    rw [History.view_write]
    exact if_neg (hx.counted.apart op hgroup)
  have hnew : History.view { h with trace := h.trace ++ [⟨op, b, v⟩] } home (h.committed ++ h.group) =
      update (h.view home (h.committed ++ h.group)) b v := by
    rw [History.view_write]
    exact if_pos (List.mem_append_right _ hgroup)
  refine ⟨hx.counted.write v hop, ?_, ?_⟩
  . dsimp only
    rw [hold]
    exact hx.safe
  . obtain ⟨hhead, hmem, hclean⟩ := hx.ready_phase hpc
    dsimp only
    rw [hold, hnew]
    unfold Phase
    simp only [State.noted, hpc]
    refine ⟨hhead, by rw [hmem], fun c hc => ?_⟩
    have hc : c ≠ b ∧ c ∉ s.lh := by
      split at hc
      . next hb =>
        refine ⟨?_, hc⟩
        rintro rfl
        exact hc hb
      . simpa [and_comm] using hc
    rw [update_of_ne _ _ hc.1]
    exact hclean c hc.2

theorem Consistent.ended (hx : Consistent home (s, h)) {op : Nat} (hop : op ∈ s.active) (hpc : s.pc = .ready)
    : Consistent home (s.ended op, h) where
  counted := hx.counted.ended hop hpc
  safe := hx.safe
  phase := hx.phase

theorem Consistent.advance (hx : Consistent home (s, h)) (hstep : Step size s .advance o s')
    : Consistent home (s', record s .advance s' h) := by
  have hcounted := step_counted hx.counted hstep
  obtain ⟨V', hM, hV, hsafe, hphase⟩ := advance_phase hx.safe hx.phase hstep
  by_cases hcommit : s.pc = .writeHead ∨ s.pc = .leave
  . simp only [record, if_pos hcommit] at hcounted ⊢
    rw [hM hcommit] at hsafe hphase
    refine ⟨hcounted, hsafe, ?_⟩
    dsimp only
    rw [List.append_nil]
    exact hphase
  . simp only [record, if_neg hcommit] at hcounted ⊢
    rw [hV hcommit] at hsafe hphase
    exact ⟨hcounted, hsafe, hphase⟩

theorem step_consistent {x x' : State β × History β} (hx : Consistent home x)
    (hstep : Machine.watch (step size) record x e = some (x', o))
    : Consistent home x' := by
  obtain ⟨hs, hh⟩ := Machine.watch_eq_some hstep
  obtain ⟨s, h⟩ := x
  obtain ⟨s', h'⟩ := x'
  dsimp only at hs hh
  subst hh
  have hcases := step_cases hs
  have hready : ∀ op, s.pc.up = true → op ∈ s.active → s.pc = .ready := fun _ hup hop => hx.counted.ready_of_mem hup hop
  cases e with
  | advance => exact hx.advance hcases
  | begin_op =>
    cases hcases with
    | begin hup hcom => exact hx.begin (hx.counted.ready hup hcom)
  | log_write op b v =>
    cases hcases with
    | tooBig =>
      simp only [record, if_pos]
      exact hx.halted
    | outside =>
      simp only [record, if_pos]
      exact hx.halted
    | write _ _ _ hup hop =>
      have hpc : (s.noted b v).pc ≠ .halted := by
        rw [State.noted, hready op hup hop]
        simp
      simp only [record, if_neg hpc]
      exact hx.write v hop (hready op hup hop)
  | end_op op =>
    cases hcases with
    | endPanic _ hup hop => exact (hx.ended hop (hready op hup hop)).halted
    | endOp _ hup hop => exact hx.ended hop (hready op hup hop)
    | endCommit _ hup hop hcom hout =>
      refine ⟨step_counted hx.counted (step_cases hs), hx.safe, ?_⟩
      obtain ⟨hhead, hmem, hnew⟩ := hx.ready_phase (hready op hup hop)
      unfold Phase
      by_cases hlh : s.lh = []
      . simp only [State.ended, if_pos hlh]
        have hM : h.view home (h.committed ++ h.group) = h.view home h.committed := by
          funext b
          exact hnew b (by simp [hlh])
        exact ⟨hhead, hlh, hmem.trans hM, hM⟩
      . simp only [State.ended, if_neg hlh]
        exact ⟨hhead, hmem, hnew, fun j c hj => absurd hj (Nat.not_lt_zero j)⟩
  | crash =>
    cases hcases
    exact hx.crash

theorem init_consistent (log home : Nat → β) : Consistent home (init log home, .empty) where
  counted := by
    constructor <;> simp [init, History.empty, Pc.commits]
  safe := by
    constructor <;> simp [init, History.empty, History.view, replay]
  phase := by
    simp [Phase, init, History.empty, History.view, replay]

theorem Consistent.recover (hx : Consistent home (s, h)) (hpc : s.pc.recovers = true) (hgroup : h.group = [])
    (he : e.recovers = true) (hstep : step size s e = some (s', o))
    : Consistent home (s', h) ∧ s'.pc.recovers = true := by
  cases e with
  | begin_op => cases he
  | log_write op b v => cases he
  | end_op op => cases he
  | crash =>
    cases step_cases hstep
    have := hx.crash
    rw [← hgroup] at this
    exact ⟨this, rfl⟩
  | advance =>
    have hcases := step_cases hstep
    have hne : ¬ (s.pc = .writeHead ∨ s.pc = .leave) := by
      rintro (heq | heq) <;> rw [heq] at hpc <;> cases hpc
    have := hx.advance hcases
    simp only [record, if_neg hne] at this
    refine ⟨this, ?_⟩
    cases hcases with
    | writeLog i b heq | writeLogEnd i heq | writeHead heq | install i b heq | installEnd i heq | clearHead heq | leave heq =>
      rw [heq] at hpc
      cases hpc
    | _ => rfl

-- How many writes are left to `recover_from_log`.
def left (s : State β) : Nat :=
  match s.pc with
  | .down => s.disk.head.length + 3
  | .recover i => s.lh.length - i + 2
  | .clearLog => 1
  | _ => 0

theorem advance_left (hpc : s.pc.recovers = true) (hne : s.pc ≠ .ready)
    : ∃ s', s.advance = some s' ∧ s'.left < s.left := by
  unfold advance
  cases heq : s.pc with
  | down => exact ⟨_, rfl, by simp [left, heq]⟩
  | clearLog => exact ⟨_, rfl, by simp [left, heq]⟩
  | recover i =>
    dsimp only
    split
    . next b hb =>
      have := (List.getElem?_eq_some_iff.mp hb).1
      refine ⟨_, rfl, ?_⟩
      simp only [left, State.install, heq]
      omega
    . exact ⟨_, rfl, by simp [left, heq]⟩
  | ready => exact absurd heq hne
  | writeLog i | writeHead | install i | clearHead | leave | halted =>
    rw [heq] at hpc
    cases hpc

theorem Consistent.recovered (hx : Consistent home (s, h)) (hpc : s.pc.recovers = true) (hgroup : h.group = [])
    : ∃ n s', Machine.run (step size) s (List.replicate n .advance) = some s' ∧ s'.pc = .ready ∧
      Consistent home (s', h) := by
  generalize hk : s.left = k
  induction k using Nat.strongRecOn generalizing s with
  | ind k ih =>
    by_cases hready : s.pc = .ready
    . exact ⟨0, s, rfl, hready, hx⟩
    . obtain ⟨s', hadvance, hlt⟩ := advance_left hpc hready
      have hstep : step size s .advance = some (s', .none) := by simp [step, hadvance]
      obtain ⟨hx', hpc'⟩ := hx.recover hpc hgroup rfl hstep
      obtain ⟨n, t, hrun, ht⟩ := ih s'.left (by omega) hx' hpc' rfl
      refine ⟨n + 1, t, ?_, ht⟩
      rw [List.replicate_succ, Machine.run_cons hstep]
      exact hrun

theorem Consistent.home_eq (hx : Consistent home (s, h)) (hpc : s.pc = .ready) : s.disk.home = h.view home h.committed := by
  funext b
  apply hx.safe.home
  rw [(hx.ready_phase hpc).1]
  exact List.not_mem_nil

-- Two operations that commit together, a crash in the middle of the install, and a third one that does not get to its end.
def crashingRun : List (Event Nat) :=
  [.begin_op, .begin_op, .log_write 0 5 1, .log_write 1 6 2, .log_write 0 6 3, .end_op 1, .end_op 0] ++
    List.replicate 5 .advance ++ [.crash] ++ List.replicate 5 .advance ++ [.begin_op, .log_write 2 5 4]

def restartRun : List (Event Nat) :=
  [.advance, .crash, .advance, .advance, .advance]

end State

end Xv6.Log
