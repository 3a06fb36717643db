import Xv6.Vm.Lemmas.Boot
import Xv6.Vm.Lemmas.Cost

/-!
How much memory is enough. An address space that stays within `n` pages needs at most `n` pages and the page
tables for them next to those that it has, so `allocuvm` succeeds as long as the free list has that many.
-/

namespace Xv6.Vm

-- All pages of the user are among the first `n`, and all page tables are in `K` or for these pages.
structure Within (K : Finset Nat) (d : PgDir) (n : Nat) : Prop where
  wf : d.Wf
  pages : ∀ w < UPAGES, (d.pte w).present = true → w < n
  tabs : ∀ i < NPDENTRIES, (d.tab i).isSome → i ∈ K ∨ i < tabsFor n

section

variable {L : Layout} {K : Finset Nat} {d d' : PgDir} {m m' : Mem} {n v w : Nat}

def kernTabs : Finset Nat :=
  (Finset.range NPDENTRIES).filter KernTab

theorem Built.within (h : Built d v) : Within kernTabs d v where
  wf := h.wf
  pages w hw hpresent := (h.pages w hw).mp hpresent
  tabs i hi hsome := by
    refine ((h.tabs i).mp hsome).imp_left fun hkern => ?_
    unfold kernTabs
    rw [Finset.mem_filter, Finset.mem_range]
    exact ⟨hi, hkern⟩

theorem tabsFor_mono (h : v ≤ w) : tabsFor v ≤ tabsFor w := by
  unfold tabsFor NPTENTRIES
  omega

theorem Within.mono (h : Within K d v) (hv : v ≤ w) : Within K d w where
  wf := h.wf
  pages u hu hpresent := Nat.lt_of_lt_of_le (h.pages u hu hpresent) hv
  tabs i hi hsome := (h.tabs i hi hsome).imp_right fun hlt => Nat.lt_of_lt_of_le hlt (tabsFor_mono hv)

theorem Within.grows {V : Set Nat} {Δ : Multiset Ppn} (h : Within K d n) (hgrows : Grows d m d' m' V Δ)
    (hV : ∀ v ∈ V, v < n)
    : Within K d' n where
  wf := hgrows.wf
  pages w hw hpresent := by
    by_cases hmem : w ∈ V
    . exact hV w hmem
    . rw [hgrows.pte w hmem] at hpresent
      exact h.pages w hw hpresent
  tabs i hi hsome := by
    rcases hgrows.newtab i hsome with hsome | ⟨v, hv, rfl⟩
    . exact h.tabs i hi hsome
    . right
      have := hV v hv
      unfold tabsFor NPTENTRIES
      omega

theorem Within.shrinks {Δ : Multiset Ppn} (h : Within K d n) (hshrinks : Shrinks d m d' m' Δ) : Within K d' n where
  wf := hshrinks.wf
  pages w hw hpresent := by
    rcases hshrinks.pte w with heq | ⟨-, -, heq⟩
    . rw [heq] at hpresent
      exact h.pages w hw hpresent
    . simp [heq, Pte.zero] at hpresent
  tabs i hi hsome := by
    rw [hshrinks.tab] at hsome
    exact h.tabs i hi hsome

theorem card_tabs_le (K : Finset Nat) (n : Nat) : (K ∪ Finset.range (tabsFor n)).card ≤ K.card + tabsFor n := by
  have := Finset.card_union_le K (Finset.range (tabsFor n))
  rwa [Finset.card_range] at this

theorem Within.tabs_subset (h : Within K d n)
    : (Finset.range NPDENTRIES).filter (fun i => (d.tab i).isSome) ⊆ K ∪ Finset.range (tabsFor n) := by
  intro i hi
  rw [Finset.mem_filter, Finset.mem_range] at hi
  rw [Finset.mem_union, Finset.mem_range]
  exact h.tabs i hi.1 hi.2

theorem Within.tabCount_le (h : Within K d n) : tabCount d ≤ K.card + tabsFor n :=
  Nat.le_trans (Finset.card_le_card h.tabs_subset) (card_tabs_le K n)

theorem Within.tabCount_lt (h : Within K d n) (hw : w < n) (htab : d.tab (w / NPTENTRIES) = none)
    : tabCount d < K.card + tabsFor n := by
  refine Nat.lt_of_lt_of_le ?_ (card_tabs_le K n)
  apply Finset.card_lt_card
  rw [Finset.ssubset_iff_of_subset h.tabs_subset]
  refine ⟨w / NPTENTRIES, ?_, by simp [htab]⟩
  rw [Finset.mem_union, Finset.mem_range]
  right
  unfold tabsFor NPTENTRIES
  omega

theorem Within.pageCount_lt (h : Within K d n) (hw : w < n) (habsent : (d.pte w).present = false)
    : pageCount d < n := by
  rw [← Finset.card_range n]
  unfold pageCount
  apply Finset.card_lt_card
  rw [Finset.ssubset_iff_of_subset]
  . exact ⟨w, Finset.mem_range.mpr hw, by simp [habsent]⟩
  . intro v hv
    rw [Finset.mem_filter, Finset.mem_range] at hv
    exact Finset.mem_range.mpr (h.pages v hv.1 hv.2)

theorem Within.pageCount_le (h : Within K d n) : pageCount d ≤ n := by
  rw [← Finset.card_range n]
  unfold pageCount
  apply Finset.card_le_card
  intro v hv
  rw [Finset.mem_filter, Finset.mem_range] at hv
  exact Finset.mem_range.mpr (h.pages v hv.1 hv.2)

-- What an address space within `n` pages needs at most.
def spaceCost (K : Finset Nat) (n : Nat) : Nat :=
  1 + (K.card + tabsFor n) + n

theorem Within.room (h : Within K d n) (hroom : spaceCost K n ≤ d.frames.card + m.free.length) (hw : w < n)
    (habsent : (d.pte w).present = false)
    : 2 ≤ m.free.length ∨ (m.free ≠ [] ∧ (d.tab (w / NPTENTRIES)).isSome) := by
  have hpage := h.pageCount_lt hw habsent
  have htab := h.tabCount_le
  rw [card_frames] at hroom
  unfold spaceCost at hroom
  by_cases hsome : (d.tab (w / NPTENTRIES)).isSome
  . right
    refine ⟨?_, hsome⟩
    intro hempty
    rw [hempty, List.length_nil] at hroom
    omega
  . left
    rw [Option.not_isSome_iff_eq_none] at hsome
    have := h.tabCount_lt hw hsome
    omega

theorem allocuvm_eq_ok {oldsz newsz : Nat} (hd : Within K d n) (hs : m.Sound (Valid L) d.frames)
    (hroom : spaceCost K n ≤ d.frames.card + m.free.length) (hle : oldsz ≤ newsz)
    (hsz : newsz < KERNBASE) (hpages : npages newsz ≤ n)
    (habsent : ∀ w ∈ Set.Ico (npages oldsz) (npages newsz), (d.pte w).present = false)
    : ∃ d' m' Δ, allocuvm L d oldsz newsz m = .ok (newsz, d', m') ∧
        Grows d m d' m' (Set.Ico (npages oldsz) (npages newsz)) Δ ∧
        Fresh d' m' (Set.Ico (npages oldsz) (npages newsz)) := by
  have hcases := allocuvm_cases hd.wf hs hle hsz
  generalize allocuvm L d oldsz newsz m = r at hcases
  cases hcases with
  | done d' m' Δ h => exact ⟨d', m', Δ, rfl, h.grows, h.fresh⟩
  | failed w d1 m1 m2 Δ Δ' h hw hfree hshrinks =>
    have hd1 : Within K d1 n := by
      apply hd.grows h.grows
      intro u hu
      rw [Set.mem_Ico] at hu
      omega
    have habsent1 : (d1.pte w).present = false := by
      rw [h.grows.pte w (by simp)]
      exact habsent w ⟨h.le, hw⟩
    rw [← h.grows.card] at hroom
    rcases hd1.room hroom (w := w) (by omega) habsent1 with hroom' | ⟨hne, hsome⟩
    . rcases hfree with hfree | ⟨hfree, -⟩
      . simp [hfree] at hroom'
      . omega
    . rcases hfree with hfree | ⟨-, hnone⟩
      . exact absurd hfree hne
      . simp [hnone] at hsome
  | remap w d1 m1 Δ h hw hpresent hfree => simp [habsent w ⟨h.le, hw⟩] at hpresent

end

-- An address space of `n` pages can be made, and its lowest page can become a guard page.
theorem guarded_space {n : Nat} (hpos : 0 < n) (hn : spaceCost kernTabs n ≤ 200)
    : ∃ d0 m0 d1 m1, setupkvm Layout.small Mem.small = .ok (some d0, m0) ∧
        allocuvm Layout.small d0 0 (n * PGSIZE) m0 = .ok (n * PGSIZE, d1, m1) ∧
        clearpteu d1 (0 * PGSIZE) m1 = .ok (d1.setPte 0 { d1.pte 0 with user := false }) ∧
        Within kernTabs d1 n ∧ (∀ v < n, (d1.pte v).present = true) ∧ m1.Sound (Valid Layout.small) d1.frames ∧
        200 ≤ m1.free.length + spaceCost kernTabs n := by
  have hlen : Mem.small.free.length = 200 := List.length_range'
  have hfree : ∀ p ∈ Mem.small.free, Valid Layout.small p :=
    fun p hp => Mem.small_sound.valid p (Multiset.mem_add.mpr (.inr hp))
  have hle : n ≤ 200 := by
    unfold spaceCost at hn
    omega
  have hend : npages (n * PGSIZE) = n := by
    unfold npages PGSIZE
    omega
  rcases setupkvm_cases hfree with ⟨-, d0, m0, hsetup, hwf, hx, htabs, hpages⟩ | ⟨hlt, -⟩
  . have hb : Built d0 0 := .zero hwf htabs hpages
    have hcard := hx.card
    rw [Multiset.card_zero, hlen] at hcard
    obtain ⟨d1, m1, Δ, halloc, hgrows, hfresh⟩ := allocuvm_eq_ok (hb.within.mono (Nat.zero_le n))
      (hx.sound Mem.small_sound) (by omega) (Nat.zero_le (n * PGSIZE)) (by unfold PGSIZE KERNBASE; omega)
      (Nat.le_of_eq hend) (by
        intro v hv
        rw [hend] at hv
        exact hpages v (Nat.lt_of_lt_of_le hv.2 (by unfold UPAGES KERNBASE PGSIZE; omega)))
    rw [hend] at hgrows hfresh
    have hpresent : ∀ v < n, (d1.pte v).present = true := by
      intro v hv
      obtain ⟨p, hpte, -⟩ := hfresh v ⟨Nat.zero_le v, hv⟩
      rw [hpte]
    have hclear : clearpteu d1 (0 * PGSIZE) m1 = .ok (d1.setPte 0 { d1.pte 0 with user := false }) := by
      unfold clearpteu
      rw [walkpgdir_false_eq, if_pos (hgrows.wf.isSome_tab (hpresent 0 hpos)),
        mul_pgsize_div]
    have hwithin : Within kernTabs d1 n := (hb.within.mono (Nat.zero_le n)).grows hgrows fun v hv => hv.2
    have hxfer : Mem.small.Xfer 0 m1 d1.frames := hx.trans (Trades.of_grows hgrows).xfer
    refine ⟨d0, m0, d1, m1, hsetup, halloc, hclear, hwithin, hpresent, hxfer.sound Mem.small_sound, ?_⟩
    have hcard1 := hxfer.card
    have htab := hwithin.tabCount_le
    have hpage := hwithin.pageCount_le
    rw [Multiset.card_zero, hlen, card_frames] at hcard1
    unfold spaceCost
    omega
  . rw [hlen] at hlt
    unfold spaceCost kernTabs at hn
    rw [card_kernTabs] at hn
    omega

end Xv6.Vm
