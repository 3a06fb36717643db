import Xv6.Vm.Impl.Step
import Xv6.Vm.Lemmas.Copy
import Xv6.Vm.Lemmas.Exec

/-!
The invariant of the machine: every page of memory belongs to one process, or to the free list. A step
trades the pages of one slot of the process table, so no process sees what another one does.
-/

namespace Xv6.Vm

def Proc.frames (x : Proc) : Multiset Ppn :=
  {x.kstack} + x.pgdir.frames

-- There are no pages above `sz`.
def Tidy (x : Proc) : Prop :=
  ∀ w < UPAGES, (x.pgdir.pte w).present = true → w < npages x.sz

def owned : Option Proc → Multiset Ppn
  | none => 0
  | some x => x.frames

namespace State

def others (s : State) (p : Slot) : Multiset Ppn :=
  ∑ q ∈ Finset.univ.erase p, owned (s.procs q)

def held (s : State) : Multiset Ppn :=
  ∑ q, owned (s.procs q)

theorem held_eq_add (s : State) (p : Slot) : s.held = owned (s.procs p) + s.others p := by
  unfold held others
  exact (Finset.add_sum_erase Finset.univ (fun q => owned (s.procs q)) (Finset.mem_univ p)).symm

theorem others_set (s : State) (p : Slot) (x : Option Proc) (m : Mem) : (s.set p x m).others p = s.others p := by
  unfold others
  apply Finset.sum_congr rfl
  intro q hq
  simp [set, Finset.ne_of_mem_erase hq]

@[simp]
theorem set_mem (s : State) (p : Slot) (x : Option Proc) (m : Mem) : (s.set p x m).mem = m := rfl

theorem set_procs (s : State) (p q : Slot) (x : Option Proc) (m : Mem)
    : (s.set p x m).procs q = if q = p then x else s.procs q := by
  simp [set, Function.update_apply]

theorem set_self (s : State) (p : Slot) (m : Mem) : s.set p (s.procs p) m = { s with mem := m } := by
  simp [set]

end State

structure Inv (L : Layout) (s : State) : Prop where
  wf : ∀ p x, s.procs p = some x → x.pgdir.Wf
  sz : ∀ p x, s.procs p = some x → x.sz < 2 ^ 32
  sound : s.mem.Sound (Valid L) s.held

theorem Inv.sound_proc {L : Layout} {s : State} {p : Slot} {x : Proc} (h : Inv L s) (hp : s.procs p = some x)
    : s.mem.Sound (Valid L) x.frames := by
  apply h.sound.mono
  rw [s.held_eq_add p, hp]
  exact Multiset.le_add_right _ _

theorem Inv.sound_pgdir {L : Layout} {s : State} {p : Slot} {x : Proc} (h : Inv L s)
    (hp : s.procs p = some x)
    : s.mem.Sound (Valid L) x.pgdir.frames := by
  apply (h.sound_proc hp).mono
  unfold Proc.frames
  exact Multiset.le_add_left _ _

section

variable {L : Layout} {x x' : Proc} {m m' : Mem}

theorem Trades.proc (h : Trades x.pgdir m x'.pgdir m') (hk : x'.kstack = x.kstack)
    : m.Xfer x.frames m' x'.frames := by
  have := h.xfer.frame {x.kstack}
  unfold Proc.frames
  rw [hk, add_comm _ x.pgdir.frames, add_comm _ x'.pgdir.frames]
  exact this

theorem fault_range {va : Nat} (h : va < 2 ^ 32)
    : (if pgrounddown va = pgroundup va then uint (pgroundup va + PGSIZE) else pgroundup va)
        =
      uint ((va / PGSIZE + 1) * PGSIZE) := by
  unfold pgrounddown pgroundup uint PGSIZE
  split
  . next h =>
    rw [← h]
    omega
  . omega

theorem Tidy.of_subset (h : Tidy x) (hsz : x.sz ≤ x'.sz)
    (hpresent : ∀ w, (x'.pgdir.pte w).present = true → (x.pgdir.pte w).present = true)
    : Tidy x' := by
  intro w hw hw'
  exact Nat.lt_of_lt_of_le (h w hw (hpresent w hw')) (npages_mono hsz)

theorem growproc_trades {n : Word} {ok : Bool} (hd : x.pgdir.Wf) (h : growproc L n x m = .ok (ok, x', m'))
    : Trades x.pgdir m x'.pgdir m' ∧ x'.kstack = x.kstack ∧ (x'.sz < KERNBASE ∨ x'.sz ≤ x.sz) ∧
        (x.sz ≤ KERNBASE → Tidy x → Tidy x') := by
  unfold growproc at h
  split at h
  . split at h
    . simp at h
    . next sz d m1 halloc =>
      obtain ⟨htrades, hr⟩ := allocuvm_trades hd halloc
      split at h
      . next hzero =>
        simp only [Except.ok.injEq, Prod.mk.injEq] at h
        obtain ⟨-, rfl, rfl⟩ := h
        refine ⟨htrades, rfl, .inr (Nat.le_refl _), fun _ htidy => ?_⟩
        refine htidy.of_subset (Nat.le_refl _) ?_
        rcases hr with ⟨-, hpresent⟩ | ⟨-, -, rfl⟩ | ⟨hzero', -, -, hpresent⟩
        . exact hpresent
        . exact fun _ hw => hw
        . -- the new size is 0
          intro w hw
          have hnone : npages (uint (x.sz + n.toNat)) = 0 := by
            rw [← hzero', hzero]
            rfl
          rcases (hpresent w).mp hw with hw | hw
          . exact hw
          . omega
      . next hne =>
        simp only [Except.ok.injEq, Prod.mk.injEq] at h
        obtain ⟨-, rfl, rfl⟩ := h
        rcases hr with ⟨hzero, -⟩ | ⟨rfl, -, rfl⟩ | ⟨rfl, hle, hlt, hpresent⟩
        . exact absurd hzero hne
        . exact ⟨htrades, rfl, .inr (Nat.le_refl _), fun _ htidy => htidy⟩
        . refine ⟨htrades, rfl, .inl hlt, fun _ htidy w hw hw' => ?_⟩
          have hmono := npages_mono hle
          rcases (hpresent w).mp hw' with hw' | hw'
          . exact Nat.lt_of_lt_of_le (htidy w hw hw') hmono
          . exact hw'.2
  . split at h
    . split at h
      . simp at h
      . next sz d m1 hdealloc =>
        obtain ⟨Δ, hshrinks⟩ := deallocuvm_shrinks hd hdealloc
        have htrades := Trades.of_shrinks hshrinks
        obtain ⟨hle, hnew⟩ : sz ≤ x.sz ∧ (sz = x.sz ∧ d = x.pgdir ∨ sz = uint (x.sz + n.toNat)) := by
          unfold deallocuvm at hdealloc
          split at hdealloc
          . simp only [Except.ok.injEq, Prod.mk.injEq] at hdealloc
            exact ⟨by omega, .inl ⟨hdealloc.1.symm, hdealloc.2.1.symm⟩⟩
          . split at hdealloc
            . simp at hdealloc
            . simp only [Except.ok.injEq, Prod.mk.injEq] at hdealloc
              omega
        have hclear : x.sz ≤ KERNBASE → ∀ w, (d.pte w).present = true → (x.pgdir.pte w).present = true ∧
            ¬ (npages (uint (x.sz + n.toNat)) ≤ w ∧ w < npages x.sz) := by
          intro hsz w hw
          rw [deallocuvm_clear hd (Nat.le_trans hsz (by decide)) hdealloc] at hw
          exact PgDir.present_clear.mp hw
        split at h
        . simp only [Except.ok.injEq, Prod.mk.injEq] at h
          obtain ⟨-, rfl, rfl⟩ := h
          refine ⟨htrades, rfl, .inr (Nat.le_refl _), fun hsz htidy => ?_⟩
          refine htidy.of_subset (Nat.le_refl _) ?_
          intro w hw
          exact (hclear hsz w hw).1
        . simp only [Except.ok.injEq, Prod.mk.injEq] at h
          obtain ⟨-, rfl, rfl⟩ := h
          refine ⟨htrades, rfl, .inr hle, fun hsz htidy w hw hw' => ?_⟩
          obtain ⟨hpresent, hrange⟩ := hclear hsz w hw'
          have := htidy w hw hpresent
          dsimp only
          rcases hnew with ⟨rfl, -⟩ | rfl
          . exact this
          . omega
    . simp only [Except.ok.injEq, Prod.mk.injEq] at h
      obtain ⟨-, rfl, rfl⟩ := h
      exact ⟨.refl hd m, rfl, .inr (Nat.le_refl _), fun _ htidy => htidy⟩

theorem sysSbrk_trades {n val : Word} (hd : x.pgdir.Wf) (h : sysSbrk L n x m = .ok (val, x', m'))
    : Trades x.pgdir m x'.pgdir m' ∧ x'.kstack = x.kstack ∧ (x'.sz < KERNBASE ∨ x'.sz ≤ x.sz) ∧
        (x.sz ≤ KERNBASE → Tidy x → Tidy x') := by
  unfold sysSbrk at h
  dsimp only at h
  split at h
  . simp at h
  . next hgrow =>
    simp only [Except.ok.injEq, Prod.mk.injEq] at h
    obtain ⟨-, rfl, rfl⟩ := h
    exact growproc_trades hd hgrow
  . next hgrow =>
    simp only [Except.ok.injEq, Prod.mk.injEq] at h
    obtain ⟨-, rfl, rfl⟩ := h
    exact growproc_trades hd hgrow

theorem pgfault_trades {va : Nat} (hd : x.pgdir.Wf) (h : pgfault L va x m = .ok (x', m'))
    : Trades x.pgdir m x'.pgdir m' ∧ x' = { x with pgdir := x'.pgdir } ∧
        (x.sz ≤ KERNBASE → Tidy x → Tidy x') := by
  unfold pgfault at h
  split at h
  . simp only [Except.ok.injEq, Prod.mk.injEq] at h
    obtain ⟨rfl, rfl⟩ := h
    exact ⟨.refl hd m, rfl, fun _ htidy => htidy⟩
  . next hva =>
    dsimp only at h
    split at h
    . simp at h
    . next halloc =>
      simp only [Except.ok.injEq, Prod.mk.injEq] at h
      obtain ⟨rfl, rfl⟩ := h
      obtain ⟨htrades, hr⟩ := allocuvm_trades hd halloc
      refine ⟨htrades, rfl, fun hsz htidy => ?_⟩
      rcases hr with ⟨-, hpresent⟩ | ⟨-, -, rfl⟩ | ⟨-, -, -, hpresent⟩
      . exact htidy.of_subset (Nat.le_refl _) hpresent
      . exact htidy
      . intro w hw hw'
        rcases (hpresent w).mp hw' with hw' | ⟨-, hlt⟩
        . exact htidy w hw hw'
        . -- the page of the address is the last one
          unfold KERNBASE at hsz
          rw [fault_range (by omega), lt_npages, uint_eq_self (by unfold PGSIZE; omega)] at hlt
          rw [lt_npages]
          show w * PGSIZE < x.sz
          unfold PGSIZE at *
          omega

def dirFrames : Option PgDir → Multiset Ppn
  | none => 0
  | some d => d.frames

theorem copyuvm_xfer {sz : Nat} {child : Option PgDir} (hd : d.Wf) (hs : m.Sound (Valid L) d.frames)
    (h : copyuvm L d sz m = .ok (child, m'))
    : m.Xfer 0 m' (dirFrames child) ∧ ∀ d' ∈ child, d'.Wf ∧ Tidy { sz := sz, pgdir := d', kstack := 0, killed := false } := by
  obtain ⟨k, hr⟩ := exists_reach d sz
  rcases copyuvm_cases hd hs hr with ⟨-, m2, heq, hx⟩ | ⟨-, -, msg, heq⟩ | ⟨-, -, d', m2, heq, hb, hx, -⟩
  . rw [heq] at h
    cases h
    exact ⟨hx, by simp⟩
  . rw [heq] at h
    cases h
  . rw [heq] at h
    cases h
    refine ⟨hx, ?_⟩
    intro d hd'
    obtain rfl := Option.some.inj hd'
    refine ⟨hb.wf, fun w hw hw' => ?_⟩
    exact Nat.lt_of_lt_of_le ((hb.pages w hw).mp hw') hr.le

theorem forkProc_xfer {child : Option Proc} (hd : x.pgdir.Wf) (hs : m.Sound (Valid L) x.pgdir.frames)
    (h : forkProc L x m = .ok (child, m'))
    : m.Xfer 0 m' (owned child) ∧ ∀ y ∈ child, y.pgdir.Wf ∧ y.sz = x.sz ∧ Tidy y := by
  unfold forkProc at h
  split at h
  . simp only [Except.ok.injEq, Prod.mk.injEq] at h
    obtain ⟨rfl, rfl⟩ := h
    exact ⟨.refl m 0, by simp⟩
  . next kstack m1 hp =>
    have hx := Mem.kalloc_xfer hp
    have hs1 : m1.Sound (Valid L) x.pgdir.frames := by
      have := (hx.frame x.pgdir.frames).sound (by rw [zero_add]; exact hs)
      apply this.mono
      exact Multiset.le_add_left _ _
    split at h
    . cases h
    . next m2 hcopy =>
      have hx2 := (copyuvm_xfer hd hs1 hcopy).1.frame {kstack}
      rw [dirFrames, zero_add] at hx2
      split at h
      . cases h
      . next m3 hfree =>
        cases h
        exact ⟨(hx.trans hx2).trans (Mem.kfree_xfer hfree), by simp⟩
    . next d m2 hcopy =>
      cases h
      obtain ⟨hx2, hchild⟩ := copyuvm_xfer hd hs1 hcopy
      have hx2' := hx2.frame {kstack}
      rw [zero_add, add_comm] at hx2'
      refine ⟨hx.trans hx2', ?_⟩
      intro y hy
      obtain rfl := Option.some.inj hy
      exact ⟨(hchild d rfl).1, rfl, (hchild d rfl).2⟩

theorem reapProc_xfer (hd : x.pgdir.Wf) (hs : m.Sound (Valid L) x.frames) (h : reapProc L x m = .ok m')
    : m.Xfer x.frames m' 0 := by
  unfold reapProc at h
  split at h
  . simp at h
  . next m1 hfree =>
    have hx1 := (Mem.kfree_xfer hfree).frame x.pgdir.frames
    rw [zero_add] at hx1
    refine hx1.trans (freevm_xfer hd ?_ h)
    intro p hp
    exact (hx1.sound hs).valid p (Multiset.mem_add.mpr (.inl hp))

theorem lt_upages_of_accessible {va : Nat} (hd : x.pgdir.Wf) (h : x.accessible va = true)
    : va / PGSIZE < UPAGES ∧ (x.pgdir.pte (va / PGSIZE)).present = true := by
  unfold Proc.accessible at h
  rw [Bool.and_eq_true] at h
  refine ⟨?_, h.1⟩
  by_contra hkern
  have := hd.kern _ (Nat.not_lt.mp hkern)
  simp [h.2] at this

theorem store_trades {va : Nat} {b : UInt8} (hd : x.pgdir.Wf) (h : x.writable va = true)
    : Trades x.pgdir m x.pgdir (x.store va b m) := by
  unfold Proc.writable at h
  rw [Bool.and_eq_true] at h
  obtain ⟨hv, hpresent⟩ := lt_upages_of_accessible hd h.1
  exact ⟨hd, write_xfer_frames hv hpresent _ _⟩

end

-- The process that an event is about.
def Event.slot : Event → Slot
  | .sbrk p _ => p
  | .mmap p _ => p
  | .fork p => p
  | .exec p _ _ => p
  | .pgfault p _ => p
  | .load p _ => p
  | .store p _ _ => p
  | .kill p => p
  | .reap p => p

-- The sizes that `sys_mmap` accepts.
def mmapAccepts (n : Word) : Prop :=
  ¬ (n.toInt ≤ 0 ∨ n.toInt.tmod 4096 ≠ 0)

theorem mmapAccepts.lt {n : Word} (h : mmapAccepts n) : n.toNat < 2 ^ 31 := by
  have := n.isLt
  unfold mmapAccepts at h
  rw [BitVec.toInt_eq_toNat_cond] at h
  split at h
  . omega
  . omega

theorem mmap_size {sz : Nat} {n : Word} (hsz : sz ≤ KERNBASE) (hn : mmapAccepts n)
    : uint (sz + n.toNat) = sz + n.toNat := by
  apply uint_eq_self
  have := hn.lt
  unfold KERNBASE at hsz
  omega

-- Where the size of a process may come from in a step.
def SzFrom (s : State) (e : Event) (q : Slot) (sz : Nat) : Prop :=
  sz < KERNBASE ∨ (∃ r y, s.procs r = some y ∧ sz ≤ y.sz) ∨
    ∃ n y, e = .mmap q n ∧ s.procs q = some y ∧ mmapAccepts n ∧ sz = uint (y.sz + n.toNat)

-- The slot `q` trades its pages for those of `x`.
structure Turn (s : State) (e : Event) (s' : State) (q : Slot) (x : Option Proc) (m : Mem) : Prop where
  eq : s' = s.set q x m
  slot : q = e.slot ∨ s.procs q = none
  xfer : s.mem.Xfer (owned (s.procs q)) m (owned x)
  wf : ∀ y ∈ x, y.pgdir.Wf
  sz : ∀ y ∈ x, SzFrom s e q y.sz
  tidy : (∀ r y, s.procs r = some y → y.sz ≤ KERNBASE ∧ Tidy y) → ∀ y ∈ x, Tidy y

section

variable {L : Layout} {s s' : State} {e : Event} {o : Output} {p : Slot} {x x' : Proc} {m : Mem}

theorem Turn.proc (hp : s.procs p = some x) (hslot : p = e.slot) (htrades : Trades x.pgdir s.mem x'.pgdir m)
    (hk : x'.kstack = x.kstack) (hsz : x'.sz < KERNBASE ∨ x'.sz ≤ x.sz)
    (htidy : x.sz ≤ KERNBASE → Tidy x → Tidy x')
    : Turn s e (s.set p (some x') m) p (some x') m where
  eq := rfl
  slot := .inl hslot
  xfer := by
    rw [hp]
    exact htrades.proc hk
  wf y hy := by
    simp only [Option.mem_def, Option.some.injEq] at hy
    subst hy
    exact htrades.wf
  sz y hy := by
    simp only [Option.mem_def, Option.some.injEq] at hy
    subst hy
    exact hsz.imp_right fun hsz => .inl ⟨p, x, hp, hsz⟩
  tidy hall y hy := by
    simp only [Option.mem_def, Option.some.injEq] at hy
    subst hy
    exact htidy (hall p x hp).1 (hall p x hp).2

theorem Turn.mem (hd : x.pgdir.Wf) (hp : s.procs p = some x) (hslot : p = e.slot)
    (hx : s.mem.Xfer x.frames m x.frames)
    : Turn s e { s with mem := m } p (some x) m where
  eq := by rw [← hp, s.set_self]
  slot := .inl hslot
  xfer := by
    rw [hp]
    exact hx
  wf y hy := by
    simp only [Option.mem_def, Option.some.injEq] at hy
    subst hy
    exact hd
  sz y hy := by
    simp only [Option.mem_def, Option.some.injEq] at hy
    subst hy
    exact .inr (.inl ⟨p, x, hp, Nat.le_refl _⟩)
  tidy hall y hy := by
    simp only [Option.mem_def, Option.some.injEq] at hy
    subst hy
    exact (hall p x hp).2

-- Either the machine stops or one slot has its turn.
def Turns (s : State) (e : Event) (o : Output) (s' : State) : Prop :=
  (∃ why, s' = { s with stopped := true } ∧ o = .stop why) ∨ ∃ q x m, Turn s e s' q x m

theorem stop_turns (s : State) (e : Event) (why : Stop) : Turns s e (s.stop why).2 (s.stop why).1 :=
  .inl ⟨why, rfl, rfl⟩

theorem fork_turns (hI : Inv L s) (hp : s.procs p = some x) (h : s.fork L x = (s', o))
    : Turns s (.fork p) o s' := by
  have hd := hI.wf p x hp
  have hs := hI.sound_pgdir hp
  unfold State.fork at h
  split at h
  . simp only [Prod.mk.injEq] at h
    rw [← h.1]
    exact .inr ⟨p, some x, s.mem, .mem hd hp rfl (.refl _ _)⟩
  . next np halloc =>
    have hfree : s.procs np = none := by
      have := findSlot_eq_some halloc
      simpa using this
    split at h
    . next why _ =>
      have := stop_turns s (.fork p) why
      rw [h] at this
      exact this
    . next m hfork =>
      simp only [Prod.mk.injEq] at h
      rw [← h.1]
      have hx := (forkProc_xfer hd hs hfork).1.frame x.frames
      refine .inr ⟨p, some x, m, .mem hd hp rfl ?_⟩
      simpa [owned] using hx
    . next child m hfork =>
      simp only [Prod.mk.injEq] at h
      rw [← h.1]
      obtain ⟨hx, hchild⟩ := forkProc_xfer hd hs hfork
      refine .inr ⟨np, some child, m, rfl, .inr hfree, ?_, ?_, ?_, ?_⟩
      . rw [hfree]
        exact hx
      . intro y hy
        exact (hchild y hy).1
      . intro y hy
        right
        left
        exact ⟨p, x, hp, Nat.le_of_eq (hchild y hy).2.1⟩
      . intro _ y hy
        exact (hchild y hy).2.2

theorem exec_turns {ip : Option Inode} {argv : List (List UInt8)} {image : Option Image} (hI : Inv L s)
    (hp : s.procs p = some x) (h : Vm.exec L ip argv x.pgdir s.mem = .ok (image, m))
    : ∃ q y m', Turn s (.exec p ip argv)
        (match image with
          | none => { s with mem := m }
          | some i => s.set p (some { x with pgdir := i.pgdir, sz := i.sz }) m) q y m' := by
  have hd := hI.wf p x hp
  obtain ⟨hx, himage⟩ := exec_xfer hd (hI.sound_pgdir hp) h
  cases image with
  | none =>
    refine ⟨p, some x, m, .mem hd hp rfl ?_⟩
    exact Trades.proc ⟨hd, hx⟩ rfl
  | some i =>
    obtain ⟨hwf, hsz, hfull⟩ := himage i rfl
    exact ⟨p, some _, m, .proc hp rfl ⟨hwf, hx⟩ rfl (.inl hsz) fun _ _ w hw hw' => (hfull w hw).mp hw'⟩

theorem step_turns (hI : Inv L s) (h : s.step L e = some (s', o)) : Turns s e o s' := by
  have hact : ∀ (p : Slot) (f : Proc → Option (State × Output)),
      (if s.stopped then none else (s.procs p).bind f) = some (s', o) →
      ∃ x, s.procs p = some x ∧ f x = some (s', o) := by
    intro p f hf
    split at hf
    . simp at hf
    . exact Option.bind_eq_some_iff.mp hf
  cases e with
  | sbrk p n =>
    obtain ⟨x, hp, hf⟩ := hact p _ h
    split at hf
    . next why _ =>
      have := stop_turns s (.sbrk p n) why
      rw [Option.some.inj hf] at this
      exact this
    . next hsbrk =>
      simp only [Option.some.injEq, Prod.mk.injEq] at hf
      obtain ⟨rfl, rfl⟩ := hf
      obtain ⟨htrades, hk, hsz, htidy⟩ := sysSbrk_trades (hI.wf p x hp) hsbrk
      exact .inr ⟨p, _, _, .proc hp rfl htrades hk hsz htidy⟩
  | mmap p n =>
    obtain ⟨x, hp, hf⟩ := hact p _ h
    simp only [Option.some.injEq, Prod.mk.injEq] at hf
    obtain ⟨rfl, rfl⟩ := hf
    right
    unfold sysMmap
    split
    . exact ⟨p, _, _, .proc hp rfl (.refl (hI.wf p x hp) _) rfl (.inr (Nat.le_refl _)) fun _ htidy => htidy⟩
    . next haccepts =>
      refine ⟨p, _, _, rfl, .inl rfl, ?_, ?_, ?_, ?_⟩
      . rw [hp]
        exact .refl _ _
      . intro y hy
        simp only [Option.mem_def, Option.some.injEq] at hy
        subst hy
        exact hI.wf p x hp
      . intro y hy
        simp only [Option.mem_def, Option.some.injEq] at hy
        subst hy
        exact .inr (.inr ⟨n, x, rfl, hp, haccepts, rfl⟩)
      . intro hall y hy
        simp only [Option.mem_def, Option.some.injEq] at hy
        subst hy
        obtain ⟨hsz, htidy⟩ := hall p x hp
        refine htidy.of_subset ?_ fun _ hw => hw
        show x.sz ≤ uint (x.sz + n.toNat)
        rw [mmap_size hsz haccepts]
        exact Nat.le_add_right _ _
  | fork p =>
    obtain ⟨x, hp, hf⟩ := hact p _ h
    exact fork_turns hI hp (Option.some.inj hf)
  | exec p ip argv =>
    obtain ⟨x, hp, hf⟩ := hact p _ h
    split at hf
    . next why _ =>
      have := stop_turns s (.exec p ip argv) why
      rw [Option.some.inj hf] at this
      exact this
    . next m hexec =>
      simp only [Option.some.injEq, Prod.mk.injEq] at hf
      rw [← hf.1]
      exact .inr (exec_turns hI hp hexec)
    . next i m hexec =>
      simp only [Option.some.injEq, Prod.mk.injEq] at hf
      rw [← hf.1]
      exact .inr (exec_turns hI hp hexec)
  | pgfault p va =>
    obtain ⟨x, hp, hf⟩ := hact p _ h
    split at hf
    . next why _ =>
      have := stop_turns s (.pgfault p va) why
      rw [Option.some.inj hf] at this
      exact this
    . next hfault =>
      simp only [Option.some.injEq, Prod.mk.injEq] at hf
      obtain ⟨rfl, rfl⟩ := hf
      obtain ⟨htrades, heq, htidy⟩ := pgfault_trades (hI.wf p x hp) hfault
      right
      refine ⟨p, _, _, .proc hp rfl htrades ?_ (.inr ?_) htidy⟩
      . rw [heq]
      . rw [heq]
  | load p va =>
    obtain ⟨x, hp, hf⟩ := hact p _ h
    split at hf
    . simp only [Option.some.injEq, Prod.mk.injEq] at hf
      rw [← hf.1]
      exact .inr ⟨p, some x, s.mem, .mem (hI.wf p x hp) hp rfl (.refl _ _)⟩
    . simp at hf
  | store p va b =>
    obtain ⟨x, hp, hf⟩ := hact p _ h
    split at hf
    . next hw =>
      simp only [Option.some.injEq, Prod.mk.injEq] at hf
      rw [← hf.1]
      exact .inr ⟨p, some x, _, .mem (hI.wf p x hp) hp rfl ((store_trades (hI.wf p x hp) hw).proc rfl)⟩
    . simp at hf
  | kill p =>
    obtain ⟨x, hp, hf⟩ := hact p _ h
    simp only [Option.some.injEq, Prod.mk.injEq] at hf
    rw [← hf.1]
    exact .inr ⟨p, _, _, .proc hp rfl (.refl (hI.wf p x hp) _) rfl (.inr (Nat.le_refl _)) fun _ htidy => htidy⟩
  | reap p =>
    obtain ⟨x, hp, hf⟩ := hact p _ h
    split at hf
    . next why _ =>
      have := stop_turns s (.reap p) why
      rw [Option.some.inj hf] at this
      exact this
    . next hreap =>
      simp only [Option.some.injEq, Prod.mk.injEq] at hf
      rw [← hf.1]
      refine .inr ⟨p, none, _, rfl, .inl rfl, ?_, by simp, by simp, by simp⟩
      rw [hp]
      exact reapProc_xfer (hI.wf p x hp) (hI.sound_proc hp) hreap

theorem SzFrom.lt {q : Slot} {sz : Nat} (hI : Inv L s) (h : SzFrom s e q sz) : sz < 2 ^ 32 := by
  rcases h with h | ⟨r, y, hr, hle⟩ | ⟨n, y, -, -, -, rfl⟩
  . unfold KERNBASE at h
    omega
  . have := hI.sz r y hr
    omega
  . exact uint_lt _

theorem Turn.xfer_held {q : Slot} {y : Option Proc} (h : Turn s e s' q y m)
    : s.mem.Xfer s.held s'.mem s'.held := by
  have := h.xfer.frame (s.others q)
  have hnew : s'.held = owned y + s.others q := by
    rw [s'.held_eq_add q, h.eq, s.others_set, State.set_procs, if_pos rfl]
  rw [← s.held_eq_add q, ← hnew] at this
  rw [h.eq, State.set_mem]
  rw [h.eq] at this
  exact this

theorem Turn.inv {q : Slot} {y : Option Proc} (hI : Inv L s) (h : Turn s e s' q y m) : Inv L s' := by
  have hproc : ∀ p x, s'.procs p = some x → (p = q ∧ x ∈ y) ∨ s.procs p = some x := by
    intro p x hp
    rw [h.eq, State.set_procs] at hp
    split at hp
    . next hq => exact .inl ⟨hq, hp⟩
    . exact .inr hp
  constructor
  . intro p x hp
    rcases hproc p x hp with ⟨-, hx⟩ | hp
    . exact h.wf x hx
    . exact hI.wf p x hp
  . intro p x hp
    rcases hproc p x hp with ⟨-, hx⟩ | hp
    . exact (h.sz x hx).lt hI
    . exact hI.sz p x hp
  . exact h.xfer_held.sound hI.sound

theorem step_inv (hI : Inv L s) (h : s.step L e = some (s', o)) : Inv L s' := by
  rcases step_turns hI h with ⟨why, rfl, -⟩ | ⟨q, y, m, hturn⟩
  . exact ⟨hI.wf, hI.sz, hI.sound⟩
  . exact hturn.inv hI

theorem step_isolated {r : Slot} {y : Proc} (hI : Inv L s) (h : s.step L e = some (s', o)) (hr : r ≠ e.slot)
    (hy : s.procs r = some y)
    : s'.procs r = some y ∧ ∀ p ∈ y.frames, s'.mem.data p = s.mem.data p := by
  rcases step_turns hI h with ⟨why, rfl, -⟩ | ⟨q, x, m, hturn⟩
  . exact ⟨hy, fun _ _ => rfl⟩
  . have hne : r ≠ q := by
      rintro rfl
      rcases hturn.slot with hslot | hnone
      . exact hr hslot
      . simp [hy] at hnone
    refine ⟨by rw [hturn.eq, State.set_procs, if_neg hne, hy], ?_⟩
    intro p hp
    rw [hturn.eq, State.set_mem]
    apply hturn.xfer.data_eq (P := Valid L) (G := s.others q)
    . rw [add_comm, ← s.held_eq_add]
      exact hI.sound
    . unfold State.others
      rw [Multiset.mem_sum]
      exact ⟨r, Finset.mem_erase.mpr ⟨hne, Finset.mem_univ r⟩, by rw [hy]; exact hp⟩

end

end Xv6.Vm
