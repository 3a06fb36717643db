import Xv6.Vm.Lemmas.State

/-!
`userinit`. Whatever memory it finds, the invariant holds afterwards, and with 68 free pages it succeeds.
-/

namespace Xv6.Vm

section

variable {L : Layout} {d d' : PgDir} {m m' : Mem} {init : List UInt8}

theorem inituvm_xfer (hd : d.Wf) (h : inituvm d init m = .ok (d', m'))
    : d'.Wf ∧ (∀ v ≠ 0, d'.pte v = d.pte v) ∧ ∃ Δ, m.Xfer d.frames m' (d'.frames + Δ) := by
  have hu : 0 < UPAGES := by decide
  unfold inituvm at h
  split at h
  . simp at h
  . split at h
    . simp at h
    . next p m1 hp =>
      have hmap := mapNew_cases true true (fun _ => 0) hd hu (by simp) hp
      rw [Nat.zero_mul] at hmap
      unfold Mem.memset at h
      rcases hmap with ⟨-, -, heq⟩ | ⟨-, heq⟩ | ⟨-, -, d2, m2, Δ, heq, hgrows, hpte, -⟩
      . rw [heq] at h
        simp only [Except.ok.injEq, Prod.mk.injEq] at h
        obtain ⟨rfl, rfl⟩ := h
        refine ⟨hd, fun _ _ => rfl, {p}, ?_⟩
        have hx := ((Mem.kalloc_put_xfer hp fun _ => 0).trans (Mem.write_xfer _ p 0 init)).frame d.frames
        rw [zero_add, add_comm] at hx
        exact hx
      . rw [heq] at h
        simp at h
      . rw [heq] at h
        simp only [Except.ok.injEq, Prod.mk.injEq] at h
        obtain ⟨rfl, rfl⟩ := h
        refine ⟨hgrows.wf, hgrows.pte, 0, ?_⟩
        have hwrite := write_xfer_frames (d := d2) (m := m2) (v := 0) hu (by rw [hpte]) 0 init
        rw [hpte] at hwrite
        rw [add_zero]
        exact (Trades.of_grows hgrows).xfer.trans hwrite

def bootState (d : PgDir) (kstack : Ppn) (m : Mem) : State where
  procs q := if q = 0 then some { sz := PGSIZE, pgdir := d, kstack := kstack, killed := false } else none
  mem := m
  stopped := false

theorem bootState_held (d : PgDir) (kstack : Ppn) (m : Mem)
    : (bootState d kstack m).held = {kstack} + d.frames := by
  rw [State.held_eq_add _ 0]
  have hzero : (bootState d kstack m).others 0 = 0 := by
    unfold State.others
    apply Finset.sum_eq_zero
    intro q hq
    simp [bootState, Finset.ne_of_mem_erase hq, owned]
  rw [hzero, add_zero]
  rfl

theorem userinit_inv {s : State} (hs : m.Sound (Valid L) 0) (h : userinit L init m = .ok s)
    : Inv L s ∧ ∀ p x, s.procs p = some x → x.sz = PGSIZE ∧ Tidy x := by
  unfold userinit at h
  split at h
  . simp at h
  . next kstack m1 hp =>
    have hx1 := Mem.kalloc_xfer hp
    have hs1 := hx1.sound hs
    have hfree : ∀ p ∈ m1.free, Valid L p := fun p hp => hs1.valid p (Multiset.mem_add.mpr (.inr hp))
    rcases setupkvm_cases hfree with ⟨-, d, m2, heq, hwf, hx2, -, hpages⟩ | ⟨-, m2, heq, -⟩
    . rw [heq] at h
      dsimp only at h
      split at h
      . simp at h
      . next d3 m3 hinit =>
        obtain ⟨hwf3, hpte3, Δ, hx3⟩ := inituvm_xfer hwf hinit
        have heq : s = bootState d3 kstack m3 := by
          rw [← Except.ok.inj h]
          rfl
        subst heq
        have hsound : m3.Sound (Valid L) ({kstack} + d3.frames) := by
          have hx2' := hx2.frame {kstack}
          have hx3' := hx3.frame {kstack}
          rw [zero_add] at hx2'
          apply ((hx2'.trans hx3').sound hs1).mono
          rw [add_comm d3.frames Δ, add_assoc, add_comm d3.frames]
          exact Multiset.le_add_left _ _
        constructor
        . constructor
          . intro p x hp
            simp only [bootState] at hp
            split at hp
            . rw [← Option.some.inj hp]
              exact hwf3
            . simp at hp
          . intro p x hp
            simp only [bootState] at hp
            split at hp
            . rw [← Option.some.inj hp]
              show PGSIZE < 2 ^ 32
              decide
            . simp at hp
          . rw [bootState_held]
            exact hsound
        . intro p x hp
          simp only [bootState] at hp
          split at hp
          . rw [← Option.some.inj hp]
            refine ⟨rfl, ?_⟩
            intro w hw hpresent
            have hone : npages PGSIZE = 1 := by decide
            dsimp only at hpresent ⊢
            rw [hone]
            by_contra hne
            rw [hpte3 w (by omega), hpages w hw] at hpresent
            simp at hpresent
          . simp at hp
    . rw [heq] at h
      simp at h

theorem userinit_eq_ok (hs : m.Sound (Valid L) 0) (hlen : 68 ≤ m.free.length) (hinit : init.length < PGSIZE)
    : ∃ d kstack m', userinit L init m = .ok (bootState d kstack m') ∧ Built d 1 ∧
        (d.pte 0).user = true ∧ m'.free.length + 68 = m.free.length := by
  have hu : 0 < UPAGES := by decide
  unfold userinit
  cases hp : m.kalloc with
  | none =>
    have := Mem.kalloc_eq_none.mp hp
    simp [this] at hlen
  | some r =>
    obtain ⟨kstack, m1⟩ := r
    have hx1 := Mem.kalloc_xfer hp
    have hs1 := hx1.sound hs
    have hlen1 := hx1.card
    simp only [Multiset.card_singleton, Multiset.card_zero] at hlen1
    have hfree : ∀ p ∈ m1.free, Valid L p := fun p hp => hs1.valid p (Multiset.mem_add.mpr (.inr hp))
    dsimp only
    rcases setupkvm_cases hfree with ⟨-, d, m2, heq, hwf, hx2, htabs, hpages⟩ | ⟨hlt, -⟩
    . have hb : Built d 0 := .zero hwf htabs hpages
      have hlen2 := hx2.card
      have hcard0 : copyCost 0 = 65 := by decide
      rw [hb.card (Nat.zero_le _), hcard0, Multiset.card_zero] at hlen2
      rw [heq]
      dsimp only
      unfold inituvm
      rw [if_neg (by omega)]
      cases hp2 : m2.kalloc with
      | none =>
        have := Mem.kalloc_eq_none.mp hp2
        simp only [this, List.length_nil] at hlen2
        omega
      | some r =>
        obtain ⟨p, m3⟩ := r
        have hfree2 := (kalloc_eq_some hp2).1
        have hmap := mapNew_cases true true (fun _ => 0) hwf hu (by simp) hp2
        rw [Nat.zero_mul] at hmap
        dsimp only
        unfold Mem.memset
        rcases hmap with ⟨-, hempty, -⟩ | ⟨hpresent, -⟩ | ⟨-, -, d4, m4, Δ, heq4, hgrows, hpte, -⟩
        . simp only [hfree2, hempty, List.length_cons, List.length_nil] at hlen2
          omega
        . simp [hpages 0 hu] at hpresent
        . rw [heq4]
          have hb1 : Built d4 1 := hb.grows hgrows (by rw [hpte])
          refine ⟨d4, kstack, _, rfl, hb1, by rw [hpte], ?_⟩
          have hcard := (Trades.of_grows hgrows).xfer.card
          have hcard1 : copyCost 1 = 67 := by decide
          rw [hb.card (Nat.zero_le _), hb1.card (by decide), hcard0, hcard1] at hcard
          rw [Mem.write_free]
          omega
    . omega

end

/-!
A machine with 200 free pages.
-/

def Layout.small : Layout where
  data := 0x108000
  kend := 0x115000
  data_aligned := by decide
  extmem_lt := by decide
  data_le := by decide
  kend_lt := by decide

def Mem.small : Mem where
  free := List.range' 1024 200
  data _ _ := 1

theorem Mem.small_sound : Mem.small.Sound (Valid Layout.small) 0 where
  nodup := by
    rw [zero_add]
    exact List.nodup_range'
  valid p hp := by
    rw [zero_add] at hp
    have := List.mem_range'_1.mp hp
    unfold Valid Layout.small PGSIZE PHYSTOP
    constructor
    . show 0x115000 ≤ Nat.mul p 4096
      rw [Nat.mul_eq]
      omega
    . show Nat.mul p 4096 < 0xE000000
      rw [Nat.mul_eq]
      omega

theorem Mem.small_boot
    : ∃ d kstack m', userinit Layout.small [] Mem.small = .ok (bootState d kstack m') ∧ Built d 1 ∧
        (d.pte 0).user = true ∧ m'.free.length + 68 = 200 := by
  have hlen : Mem.small.free.length = 200 := List.length_range'
  obtain ⟨d, kstack, m', h⟩ := userinit_eq_ok Mem.small_sound (by rw [hlen]; decide)
    (show ([] : List UInt8).length < PGSIZE by decide)
  rw [hlen] at h
  exact ⟨d, kstack, m', h⟩

end Xv6.Vm
