import Xv6.Vm.Bound
import Xv6.Vm.Flat

/-!
`mmap` against `sbrk`. A program that calls one in place of the other cannot tell the difference as long as
there is memory: both kernels follow the same flat memory.
-/

namespace Xv6.Vm

-- What a program does with its memory.
inductive Call where
  | sbrk (n : Word)
  | mmap (n : Word)
  | load (va : Nat)
  | store (va : Nat) (b : UInt8)

def Call.eager : Call → Call
  | .mmap n => .sbrk n
  | c => c

-- An access that the page table does not let through traps, and is made again when the handler returns.
def State.touch (L : Layout) (s : State) (p : Slot) (va : Nat) : Option State :=
  match s.procs p with
  | none => none
  | some x => if x.accessible va then some s else (s.step L (.pgfault p va)).map Prod.fst

def call (L : Layout) (p : Slot) : Machine State Call Output := fun s c =>
  match c with
  | .sbrk n => s.step L (.sbrk p n)
  | .mmap n => s.step L (.mmap p n)
  | .load va => (s.touch L p va).bind fun s => s.step L (.load p va)
  | .store va b => (s.touch L p va).bind fun s => s.step L (.store p va b)

-- A page that is there is there for the user.
def Proc.Open (x : Proc) (va : Nat) : Prop :=
  (x.pgdir.pte (va / PGSIZE)).present = true → (x.pgdir.pte (va / PGSIZE)).user = true

-- The sizes stay up to `M`, and accesses are below `sz` and not on a guard page.
def Legal (p : Slot) (M : Nat) (s : State) (c : Call) : Prop :=
  ∀ x, s.procs p = some x →
    match c with
    | .sbrk n => n.toInt > 0 → x.sz + n.toNat ≤ M
    | .mmap n => mmapAccepts n ∧ x.sz + n.toNat ≤ M
    | .load va => va < x.sz ∧ x.Open va
    | .store va _ => va < x.sz ∧ x.Open va

namespace Flat

def Legal (M : Nat) (f : Flat) : Call → Prop
  | .sbrk n => n.toInt > 0 → f.sz + n.toNat ≤ M
  | .mmap n => mmapAccepts n ∧ f.sz + n.toNat ≤ M
  | .load va => va < f.sz ∧ f.guard (va / PGSIZE) = false
  | .store va _ => va < f.sz ∧ f.guard (va / PGSIZE) = false

def call (f : Flat) : Call → Output × Flat
  | .sbrk n => (.ret (f.sbrk n).1, (f.sbrk n).2)
  | .mmap n => (.ret (f.mmap n).1, (f.mmap n).2)
  | .load va => (.byte (f.byte va), f)
  | .store va b => (.none, f.store va b)

theorem Legal.eager {M : Nat} {f : Flat} {c : Call} (h : f.Legal M c) : f.Legal M c.eager := by
  cases c with
  | mmap n => exact fun _ => h.2
  | sbrk n => exact h
  | load va => exact h
  | store va b => exact h

theorem call_eager {M : Nat} {f : Flat} {c : Call} (h : f.Legal M c) : f.call c.eager = f.call c := by
  cases c with
  | mmap n =>
    unfold Call.eager call
    dsimp only
    rw [f.sbrk_eq_mmap h.1]
  | sbrk n => rfl
  | load va => rfl
  | store va b => rfl

theorem sbrk_sz_le {M : Nat} {f : Flat} {n : Word} (h : n.toInt > 0 → f.sz + n.toNat ≤ M) (hsz : f.sz ≤ M)
    : (f.sbrk n).2.sz ≤ M := by
  unfold sbrk
  split
  . next hpos => exact h hpos
  . split
    . split
      . split
        . exact hsz
        . exact hsz
      . next hge =>
        split
        . exact hsz
        . show uint (f.sz + n.toNat) ≤ M
          omega
    . exact hsz

end Flat

section

variable {L : Layout} {K : Finset Nat} {M : Nat} {p : Slot} {s s' : State} {o : Output} {x x' : Proc} {m : Mem}

theorem Legal.flat {c : Call} (h : Legal p M s c) (hp : s.procs p = some x) : (x.flat s.mem).Legal M c := by
  have hguard : ∀ va, x.Open va → (x.flat s.mem).guard (va / PGSIZE) = false := by
    intro va hopen
    unfold Proc.flat
    dsimp only
    cases hpresent : (x.pgdir.pte (va / PGSIZE)).present with
    | false => simp
    | true => simp [hopen hpresent]
  have := h x hp
  cases c with
  | sbrk n => exact this
  | mmap n => exact this
  | load va => exact ⟨this.1, hguard va this.2⟩
  | store va b => exact ⟨this.1, hguard va this.2⟩

-- The process `x` may grow to the size `M`.
structure Fit (L : Layout) (K : Finset Nat) (M : Nat) (p : Slot) (s : State) (x : Proc) : Prop where
  inv : Inv L s
  going : s.stopped = false
  proc : s.procs p = some x
  sz : x.sz ≤ M
  roomy : Roomy K (npages M) x s.mem

theorem Fit.step (h : Fit L K M p s x) {e : Event} (hstep : s.step L e = some (s.set p (some x') m, o))
    (hsz : x'.sz ≤ M) (hroomy : Roomy K (npages M) x' m)
    : Fit L K M p (s.set p (some x') m) x' where
  inv := step_inv h.inv hstep
  going := h.going
  proc := by rw [State.set_procs, if_pos rfl]
  sz := hsz
  roomy := hroomy

theorem sbrk_spec {n : Word} (h : Fit L K M p s x) (hM : M < KERNBASE - PGSIZE)
    (hn : n.toInt > 0 → x.sz + n.toNat ≤ M)
    : ∃ s' x', s.step L (.sbrk p n) = some (s', .ret ((x.flat s.mem).sbrk n).1) ∧ Fit L K M p s' x' ∧
        x'.flat s'.mem = ((x.flat s.mem).sbrk n).2 := by
  obtain ⟨x', m, heq, hroomy, hflat⟩ := sysSbrk_flat (L := L) h.roomy (h.inv.sound_pgdir h.proc)
    (by have := h.sz; omega) (fun hpos => ⟨by have := hn hpos; omega, npages_mono (hn hpos)⟩)
  have hstep : s.step L (.sbrk p n) = some (s.set p (some x') m, .ret ((x.flat s.mem).sbrk n).1) := by
    unfold State.step
    dsimp only
    rw [h.going, h.proc, if_neg (by simp), Option.bind_some, heq]
  have hsz : x'.sz ≤ M := by
    have hflatsz : x'.sz = ((x.flat s.mem).sbrk n).2.sz := by
      rw [← hflat]
      rfl
    rw [hflatsz]
    exact Flat.sbrk_sz_le hn h.sz
  exact ⟨_, x', hstep, h.step hstep hsz hroomy, hflat⟩

theorem mmap_spec {n : Word} (h : Fit L K M p s x) (hM : M < KERNBASE - PGSIZE) (hn : mmapAccepts n)
    (hsz : x.sz + n.toNat ≤ M)
    : ∃ s' x', s.step L (.mmap p n) = some (s', .ret ((x.flat s.mem).mmap n).1) ∧ Fit L K M p s' x' ∧
        x'.flat s'.mem = ((x.flat s.mem).mmap n).2 := by
  have hkern : x.sz ≤ KERNBASE := by
    have := h.sz
    omega
  have hstep : s.step L (.mmap p n)
      = some (s.set p (some { x with sz := x.sz + n.toNat }) s.mem, .ret (.ofNat 32 x.sz)) := by
    unfold State.step sysMmap
    dsimp only
    rw [h.going, h.proc, if_neg (by simp), Option.bind_some, if_neg hn, mmap_size hkern hn]
  refine ⟨_, _, hstep, h.step hstep hsz ?_, rfl⟩
  refine ⟨h.roomy.within, ?_, h.roomy.room⟩
  exact h.roomy.tidy.of_subset (Nat.le_add_right _ _) fun _ hw => hw

theorem touch_spec {va : Nat} (h : Fit L K M p s x) (hM : M < KERNBASE - PGSIZE) (hva : va < x.sz)
    (hguard : (x.flat s.mem).guard (va / PGSIZE) = false)
    : ∃ s' x', s.touch L p va = some s' ∧ Fit L K M p s' x' ∧ x'.flat s'.mem = x.flat s.mem ∧
        x'.accessible va = true := by
  unfold State.touch
  rw [h.proc]
  dsimp only
  by_cases haccess : x.accessible va = true
  . rw [if_pos haccess]
    exact ⟨s, x, rfl, h, rfl, haccess⟩
  . rw [if_neg haccess]
    have hsz := h.sz
    have hu : va / PGSIZE < UPAGES := by
      unfold KERNBASE at hM
      unfold UPAGES KERNBASE
      unfold PGSIZE at *
      omega
    have habsent := absent_of_guard hu hguard (by simpa using haccess)
    obtain ⟨x', m, heq, hroomy, hflat, haccess'⟩ := pgfault_flat (L := L) h.roomy (h.inv.sound_pgdir h.proc)
      (by omega) (npages_mono hsz) hva habsent
    have hstep : s.step L (.pgfault p va) = some (s.set p (some x') m, .none) := by
      unfold State.step
      dsimp only
      rw [h.going, h.proc, if_neg (by simp), Option.bind_some, heq]
    rw [hstep]
    have hsz' : x'.sz ≤ M := by
      have hflatsz : x'.sz = (x.flat s.mem).sz := by
        rw [← hflat]
        rfl
      rw [hflatsz]
      exact hsz
    exact ⟨_, x', rfl, h.step hstep hsz' hroomy, hflat, haccess'⟩

theorem load_spec {va : Nat} (h : Fit L K M p s x) (haccess : x.accessible va = true)
    : s.step L (.load p va) = some (s, .byte ((x.flat s.mem).byte va)) := by
  unfold State.step
  dsimp only
  rw [h.going, h.proc, if_neg (by simp), Option.bind_some, if_pos haccess,
    flat_byte (h.inv.wf p x h.proc) haccess]

theorem store_spec {va : Nat} {b : UInt8} (h : Fit L K M p s x) (haccess : x.accessible va = true)
    : ∃ s', s.step L (.store p va b) = some (s', .none) ∧ Fit L K M p s' x ∧
        x.flat s'.mem = (x.flat s.mem).store va b := by
  have hd := h.inv.wf p x h.proc
  have hwritable : x.writable va = true := by
    unfold Proc.writable
    rw [haccess, Bool.true_and]
    apply hd.write
    unfold Proc.accessible at haccess
    rw [Bool.and_eq_true] at haccess
    exact haccess.2
  have hstep : s.step L (.store p va b) = some ({ s with mem := x.store va b s.mem }, .none) := by
    unfold State.step
    dsimp only
    rw [h.going, h.proc, if_neg (by simp), Option.bind_some, if_pos hwritable]
  refine ⟨_, hstep, ?_, flat_store hd (h.inv.sound_pgdir h.proc) haccess⟩
  exact ⟨step_inv h.inv hstep, h.going, h.proc, h.sz, h.roomy.within, h.roomy.tidy, h.roomy.room⟩

-- Every call does on the flat memory what `Flat.call` says.
theorem call_spec {c : Call} (h : Fit L K M p s x) (hM : M < KERNBASE - PGSIZE)
    (hc : (x.flat s.mem).Legal M c)
    : ∃ s' x', call L p s c = some (s', ((x.flat s.mem).call c).1) ∧ Fit L K M p s' x' ∧
        x'.flat s'.mem = ((x.flat s.mem).call c).2 := by
  cases c with
  | sbrk n => exact sbrk_spec h hM hc
  | mmap n => exact mmap_spec h hM hc.1 hc.2
  | load va =>
    obtain ⟨s', x', htouch, hfit, hflat, haccess⟩ := touch_spec h hM hc.1 hc.2
    unfold call
    dsimp only
    rw [htouch, Option.bind_some, load_spec hfit haccess, hflat]
    exact ⟨s', x', rfl, hfit, hflat⟩
  | store va b =>
    obtain ⟨s', x', htouch, hfit, hflat, haccess⟩ := touch_spec h hM hc.1 hc.2
    obtain ⟨s'', hstep, hfit', hflat'⟩ := store_spec (b := b) hfit haccess
    unfold call
    dsimp only
    rw [htouch, Option.bind_some, hstep]
    refine ⟨s'', x', rfl, hfit', ?_⟩
    rw [hflat', hflat]
    rfl

-- The two kernels, with the same flat memory.
def Alike (L : Layout) (K : Finset Nat) (M : Nat) (p : Slot) (s t : State) : Prop :=
  ∃ x y, Fit L K M p s x ∧ Fit L K M p t y ∧ x.flat s.mem = y.flat t.mem

theorem call_alike {c : Call} {t : State} (hM : M < KERNBASE - PGSIZE) (h : Alike L K M p s t)
    (hc : Legal p M s c)
    : ∃ s' t' o, call L p s c = some (s', o) ∧ call L p t c.eager = some (t', o) ∧ Alike L K M p s' t' := by
  obtain ⟨x, y, hx, hy, hflat⟩ := h
  have hcx := hc.flat hx.proc
  have hcy := hcx.eager
  rw [hflat] at hcy
  obtain ⟨s', x', hs, hx', hflatx⟩ := call_spec hx hM hcx
  obtain ⟨t', y', ht, hy', hflaty⟩ := call_spec hy hM hcy
  rw [← hflat, Flat.call_eager hcx] at ht hflaty
  exact ⟨s', t', _, hs, ht, x', y', hx', hy', by rw [hflatx, hflaty]⟩

-- The invariant, with sizes up to `KERNBASE` and no pages above them.
structure Neat (L : Layout) (s : State) : Prop where
  inv : Inv L s
  below : s.Below
  tidy : ∀ p x, s.procs p = some x → Tidy x

theorem step_neat {e : Event} (h : Neat L s) (hstep : s.step L e = some (s', o)) (hfits : MmapFits s e)
    : Neat L s' where
  inv := step_inv h.inv hstep
  below := step_below h.inv h.below hstep hfits
  tidy p x hp := by
    rcases step_turns h.inv hstep with ⟨why, rfl, -⟩ | ⟨q, y, m, hturn⟩
    . exact h.tidy p x hp
    . rw [hturn.eq, State.set_procs] at hp
      split at hp
      . exact hturn.tidy (fun r z hr => ⟨(h.below r z hr).size, h.tidy r z hr⟩) x hp
      . exact h.tidy p x hp

theorem run_neat {init : List UInt8} {m : Mem} {s₀ : State} {es : List Event} (hs : m.Sound (Valid L) 0)
    (hboot : userinit L init m = .ok s₀) (hfits : Machine.Along (State.step L) (fun s e _ _ => MmapFits s e) s₀ es)
    (hrun : Machine.run (State.step L) s₀ es = some s)
    : Neat L s := by
  obtain ⟨hinv, hx⟩ := userinit_inv hs hboot
  have hneat : Neat L s₀ := by
    refine ⟨hinv, ?_, ?_⟩
    . intro q y hq
      rw [below_iff, (hx q y hq).1]
      decide
    . intro q y hq
      exact (hx q y hq).2
  exact Machine.run_invariant (fun _ _ _ _ h hstep hfits => step_neat h hstep hfits) hneat hfits hrun

end

/--
After any run from `userinit` on, a process that replaces its calls of `mmap` by calls of `sbrk` gets the same
values from all calls and loads, if its sizes stay up to `M` and there are free pages for an address space
of this size.
-/
theorem lazy_mmap_eq_eager_sbrk {L : Layout} {init : List UInt8} {m : Mem} {s₀ s : State} {pre : List Event}
    (hs : m.Sound (Valid L) 0) (hboot : userinit L init m = .ok s₀)
    (hfits : Machine.Along (State.step L) (fun s e _ _ => MmapFits s e) s₀ pre)
    (hrun : Machine.run (State.step L) s₀ pre = some s) (hgoing : s.stopped = false)
    {p : Slot} {x : Proc} (hp : s.procs p = some x) {M : Nat} (hM : M < KERNBASE - PGSIZE) (hsz : x.sz ≤ M)
    (hroom : npages M + tabsFor (npages M) ≤ s.mem.free.length)
    {es : List Call} (hes : Machine.Admits (call L p) (Legal p M) s es)
    : Machine.outputs (call L p) s es = Machine.outputs (call L p) s (es.map Call.eager) ∧
        (Machine.outputs (call L p) s es).length = es.length := by
  have hneat := run_neat hs hboot hfits hrun
  have hfit : Fit L ((Finset.range NPDENTRIES).filter fun i => (x.pgdir.tab i).isSome) M p s x := by
    refine ⟨hneat.inv, hgoing, hp, hsz, ⟨hneat.inv.wf p x hp, ?_, ?_⟩, hneat.tidy p x hp, ?_⟩
    . intro w hw hpresent
      exact Nat.lt_of_lt_of_le (hneat.tidy p x hp w hw hpresent) (npages_mono hsz)
    . intro i hi hsome
      left
      rw [Finset.mem_filter, Finset.mem_range]
      exact ⟨hi, hsome⟩
    . rw [card_frames]
      unfold spaceCost tabCount
      omega
  have halike : Alike L ((Finset.range NPDENTRIES).filter fun i => (x.pgdir.tab i).isSome) M p s s :=
    ⟨x, x, hfit, hfit, rfl⟩
  exact Machine.outputs_eq_of_simulation (f := Call.eager) (fun _ _ _ h hc => call_alike hM h hc) halike hes

theorem lazy_mmap_eq_eager_sbrk_boot
    : ∃ s, userinit Layout.small [] Mem.small = .ok s ∧
        Machine.outputs (call Layout.small 0) s [.mmap 4096, .load 4096]
          = Machine.outputs (call Layout.small 0) s [.sbrk 4096, .load 4096] ∧
        (Machine.outputs (call Layout.small 0) s [.mmap 4096, .load 4096]).length = 2 := by
  obtain ⟨d, kstack, m, hboot, hb, -, hlen⟩ := Mem.small_boot
  refine ⟨_, hboot, ?_⟩
  have hstep : call Layout.small 0 (bootState d kstack m) (.mmap 4096) = some ((bootState d kstack m).set 0
      (some { sz := uint (PGSIZE + 4096), pgdir := d, kstack := kstack, killed := false }) m,
      .ret (.ofNat 32 PGSIZE)) := rfl
  have hes : Machine.Admits (call Layout.small 0) (Legal 0 8192) (bootState d kstack m)
      [.mmap 4096, .load 4096] := by
    refine ⟨?_, ?_⟩
    . intro x hx
      rw [← Option.some.inj hx]
      show mmapAccepts 4096 ∧ PGSIZE + (4096 : Word).toNat ≤ 8192
      unfold mmapAccepts
      decide
    . intro s' o hs'
      rw [hstep, Option.some.injEq, Prod.mk.injEq] at hs'
      rw [← hs'.1]
      refine ⟨?_, fun _ _ _ => trivial⟩
      intro x hx
      rw [State.set_procs, if_pos rfl] at hx
      rw [← Option.some.inj hx]
      refine ⟨show 4096 < uint (PGSIZE + 4096) by decide, ?_⟩
      intro hpresent
      have := (hb.pages 1 (by decide)).mp hpresent
      omega
  have hroom : npages 8192 + tabsFor (npages 8192) ≤ (bootState d kstack m).mem.free.length := by
    have hcost : npages 8192 + tabsFor (npages 8192) = 3 := by decide
    rw [hcost]
    show 3 ≤ m.free.length
    omega
  have hpre : Machine.Along (State.step Layout.small) (fun s e _ _ => MmapFits s e) (bootState d kstack m) [] :=
    trivial
  exact lazy_mmap_eq_eager_sbrk Mem.small_sound hboot hpre rfl rfl rfl (by decide)
    (show PGSIZE ≤ 8192 by decide) hroom hes

end Xv6.Vm
