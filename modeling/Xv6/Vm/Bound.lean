import Xv6.Vm.Lemmas.Boot

/-!
The size of a process and the addresses that a system call takes from it. `fetchint`, `fetchstr` and `argptr`
compare with `sz` only, so user memory ends at `KERNBASE` for them exactly as long as `sz` does. `sys_mmap`
is the one place that does not look at the limit.
-/

namespace Xv6.Vm

-- What the system calls accept from a process of size `sz` lies below `KERNBASE`.
structure Below (sz : Nat) : Prop where
  size : sz ≤ KERNBASE
  fetchint : ∀ read addr val, fetchint read sz addr = some val → addr + 4 ≤ KERNBASE
  fetchstr : ∀ read addr n, fetchstr read sz addr = some n → addr + n < KERNBASE
  argptr : ∀ read esp n i, ∀ size : Word, argptr read sz esp n size = some i → i + size.toNat ≤ KERNBASE

theorem fetchstrLoop_eq_some {read : Nat → UInt8} {ep fuel s s' : Nat}
    (h : fetchstrLoop read ep fuel s = some s')
    : s ≤ s' ∧ s' < ep := by
  induction fuel generalizing s with
  | zero => simp [fetchstrLoop] at h
  | succ fuel ih =>
    unfold fetchstrLoop at h
    split at h
    . split at h
      . simp only [Option.some.injEq] at h
        omega
      . have := ih h
        omega
    . simp at h

theorem below_iff {sz : Nat} : Below sz ↔ sz ≤ KERNBASE := by
  constructor
  . intro h
    exact h.size
  . intro hsz
    refine ⟨hsz, ?_, ?_, ?_⟩
    . intro read addr val h
      unfold fetchint at h
      split at h
      . simp at h
      . unfold uint at *
        unfold KERNBASE at *
        omega
    . intro read addr n h
      unfold fetchstr at h
      split at h
      . simp at h
      . rw [Option.map_eq_some_iff] at h
        obtain ⟨s', hs', rfl⟩ := h
        have := fetchstrLoop_eq_some hs'
        omega
    . intro read esp n i size h
      unfold argptr at h
      split at h
      . simp at h
      . split at h
        . simp at h
        . next hnot =>
          simp only [Option.some.injEq] at h
          subst h
          have hpos : size.toNat < 2 ^ 31 := by
            have := size.isLt
            rw [BitVec.toInt_eq_toNat_cond] at hnot
            split at hnot
            . omega
            . omega
          unfold uint at hnot
          unfold KERNBASE at *
          omega

def State.Below (s : State) : Prop :=
  ∀ p x, s.procs p = some x → Vm.Below x.sz

-- A `mmap` that goes through ends below `KERNBASE`.
def MmapFits (s : State) (e : Event) : Prop :=
  ∀ p n x, e = .mmap p n → s.procs p = some x → mmapAccepts n → x.sz + n.toNat ≤ KERNBASE

section

variable {L : Layout} {s s' : State} {e : Event} {o : Output}

theorem step_below (hI : Inv L s) (hb : s.Below) (h : s.step L e = some (s', o)) (hfits : MmapFits s e)
    : s'.Below := by
  intro p x hp
  rw [below_iff]
  rcases step_turns hI h with ⟨why, rfl, -⟩ | ⟨q, y, m, hturn⟩
  . exact (hb p x hp).size
  . rw [hturn.eq, State.set_procs] at hp
    split at hp
    . rcases hturn.sz x hp with hlt | ⟨r, z, hr, hle⟩ | ⟨n, z, he, hq, haccepts, heq⟩
      . omega
      . have := (hb r z hr).size
        omega
      . have := hfits q n z he hq haccepts
        rw [heq, mmap_size (hb q z hq).size haccepts]
        exact this
    . exact (hb p x hp).size

theorem mmap_step {p : Slot} {n : Word} {x : Proc} (h : s.step L (.mmap p n) = some (s', o))
    (hp : s.procs p = some x) (hn : mmapAccepts n)
    : ∃ y, s'.procs p = some y ∧ y.sz = uint (x.sz + n.toNat) := by
  unfold State.step at h
  dsimp only at h
  split at h
  . simp at h
  . rw [hp] at h
    rw [Option.bind_some] at h
    unfold sysMmap at h
    rw [if_neg hn] at h
    simp only [Option.some.injEq, Prod.mk.injEq] at h
    rw [← h.1]
    exact ⟨_, by rw [State.set_procs, if_pos rfl], rfl⟩

-- The step itself is the only place where the bound may get lost.
theorem step_below_iff (hI : Inv L s) (hb : s.Below) (h : s.step L e = some (s', o))
    : s'.Below ↔ MmapFits s e := by
  constructor
  . intro hb' p n x he hp hn
    subst he
    obtain ⟨y, hy, heq⟩ := mmap_step h hp hn
    have := (hb' p y hy).size
    rw [heq, mmap_size (hb p x hp).size hn] at this
    exact this
  . exact step_below hI hb h

end

/--
In every run from `userinit` on, all sizes stay below `KERNBASE`, and with them all addresses that system
calls accept, if and only if every `mmap` that goes through ends below `KERNBASE`.
-/
theorem sizes_below_iff_mmap_fits {L : Layout} {init : List UInt8} {m : Mem} {s : State}
    (hs : m.Sound (Valid L) 0) (hboot : userinit L init m = .ok s) (es : List Event)
    : Machine.Always (State.step L) State.Below s es ↔
        Machine.Along (State.step L) (fun s e _ _ => MmapFits s e) s es := by
  obtain ⟨hinv, hsz⟩ := userinit_inv hs hboot
  have hbelow : s.Below := by
    intro p x hp
    rw [below_iff, (hsz p x hp).1]
    decide
  apply Machine.always_iff_along (J := Inv L) _ _ hinv hbelow
  . intro s e o s' hI h
    exact step_inv hI h
  . intro s e o s' hI hb h
    exact step_below_iff hI hb h

theorem sizes_below_iff_mmap_fits_boot
    : ∃ s, userinit Layout.small [] Mem.small = .ok s ∧
        (Machine.Always (State.step Layout.small) State.Below s [.mmap 0 4096] ↔
          Machine.Along (State.step Layout.small) (fun s e _ _ => MmapFits s e) s [.mmap 0 4096]) := by
  obtain ⟨d, kstack, m, hboot, -⟩ := Mem.small_boot
  exact ⟨_, hboot, sizes_below_iff_mmap_fits Mem.small_sound hboot _⟩

-- The first `mmap` ends at `KERNBASE`, the second one above it.
theorem mmap_exceeds_kernbase
    : ∃ s, userinit Layout.small [] Mem.small = .ok s ∧
        ¬ Machine.Always (State.step Layout.small) State.Below s [.mmap 0 0x7FFFF000, .mmap 0 4096] := by
  obtain ⟨d, kstack, m, hboot, -⟩ := Mem.small_boot
  refine ⟨_, hboot, ?_⟩
  intro hall
  have hle : uint (uint (PGSIZE + (0x7FFFF000 : Word).toNat) + (4096 : Word).toNat) ≤ KERNBASE :=
    (hall.2.2.1 0 _ rfl).size
  revert hle
  decide

end Xv6.Vm
