import Mathlib.Data.Finset.Image
import Xv6.Vm.Lemmas.Setup

/-!
How many pages `allocuvm` takes: one for each page that it maps and one for each page table that is missing.
-/

namespace Xv6.Vm

section

variable {L : Layout} {d d' : PgDir} {m m' : Mem} {v w : Nat} {Δ : Multiset Ppn}

-- The page tables that are missing for the pages from `v` to `w`.
def newTabs (d : PgDir) (v w : Nat) : Finset Nat :=
  ((Finset.Ico v w).image (· / NPTENTRIES)).filter fun i => d.tab i = none

def allocCost (d : PgDir) (v w : Nat) : Nat :=
  w - v + (newTabs d v w).card

theorem Grows.card {V : Set Nat} (h : Grows d m d' m' V Δ)
    : d'.frames.card + m'.free.length = d.frames.card + m.free.length :=
  (Trades.of_grows h).xfer.card

theorem Fills.present (h : Fills d m v w d' m' Δ) {u : Nat} (hu : u ∈ Set.Ico v w) : (d'.pte u).present = true := by
  obtain ⟨p, hpte, -⟩ := h.fresh u hu
  rw [hpte]

theorem Fills.pageCount (h : Fills d m v w d' m' Δ) (hw : w ≤ UPAGES) : pageCount d' = pageCount d + (w - v) := by
  have hunion : (Finset.range UPAGES).filter (fun u => (d'.pte u).present)
      = (Finset.range UPAGES).filter (fun u => (d.pte u).present) ∪ Finset.Ico v w := by
    ext u
    simp only [Finset.mem_filter, Finset.mem_range, Finset.mem_union, Finset.mem_Ico]
    by_cases hu : u ∈ Set.Ico v w
    . have := hu.2
      exact iff_of_true ⟨by omega, h.present hu⟩ (.inr hu)
    . rw [h.grows.pte u hu]
      rw [Set.mem_Ico] at hu
      exact (or_iff_left hu).symm
  unfold Vm.pageCount
  rw [hunion, Finset.card_union_of_disjoint, Nat.card_Ico]
  rw [Finset.disjoint_left]
  intro u hu hmem
  rw [Finset.mem_filter] at hu
  rw [h.absent u (Finset.mem_Ico.mp hmem)] at hu
  simp at hu

theorem Fills.tabCount (h : Fills d m v w d' m' Δ) (hw : w ≤ UPAGES)
    : tabCount d' = tabCount d + (newTabs d v w).card := by
  have hunion : (Finset.range NPDENTRIES).filter (fun i => (d'.tab i).isSome)
      = (Finset.range NPDENTRIES).filter (fun i => (d.tab i).isSome) ∪ newTabs d v w := by
    ext i
    simp only [newTabs, Finset.mem_filter, Finset.mem_range, Finset.mem_union, Finset.mem_image, Finset.mem_Ico]
    constructor
    . rintro ⟨hi, hsome⟩
      by_cases hold : (d.tab i).isSome
      . exact .inl ⟨hi, hold⟩
      . rcases h.grows.newtab i hsome with hold' | ⟨u, hu, hui⟩
        . exact absurd hold' hold
        . exact .inr ⟨⟨u, hu, hui⟩, by simpa using hold⟩
    . rintro (⟨hi, hold⟩ | ⟨⟨u, hu, rfl⟩, -⟩)
      . obtain ⟨p, hp⟩ := Option.isSome_iff_exists.mp hold
        exact ⟨hi, by rw [h.grows.tab i p hp]; rfl⟩
      . refine ⟨?_, h.grows.wf.isSome_tab (h.present hu)⟩
        unfold UPAGES KERNBASE PGSIZE at hw
        unfold NPDENTRIES NPTENTRIES
        omega
  unfold Vm.tabCount
  rw [hunion, Finset.card_union_of_disjoint]
  rw [Finset.disjoint_left]
  intro i hi hmem
  unfold newTabs at hmem
  rw [Finset.mem_filter] at hi hmem
  rw [hmem.2] at hi
  simp at hi

theorem Fills.cost (h : Fills d m v w d' m' Δ) (hw : w ≤ UPAGES)
    : m.free.length = m'.free.length + allocCost d v w := by
  have hcard := h.grows.card
  rw [card_frames, card_frames, h.pageCount hw, h.tabCount hw] at hcard
  unfold allocCost
  omega

theorem Fills.eq_of_empty (h : Fills d m v v d' m' Δ) : d' = d := by
  have hpte : d'.pte = d.pte := by
    funext u
    exact h.grows.pte u (by simp)
  have htab : d'.tab = d.tab := by
    funext i
    cases hi : d.tab i with
    | some p => exact h.grows.tab i p hi
    | none =>
      by_contra hne
      rcases h.grows.newtab i (Option.isSome_iff_ne_none.mpr hne) with hold | ⟨u, hu, -⟩
      . simp [hi] at hold
      . simp at hu
  have hpage := h.grows.page
  cases d
  cases d'
  simp_all

theorem allocCost_lt {u : Nat} (hv : v ≤ u) (hu : u < w) : allocCost d v u < allocCost d v w := by
  have hle : (newTabs d v u).card ≤ (newTabs d v w).card := by
    apply Finset.card_le_card
    unfold newTabs
    apply Finset.filter_subset_filter
    apply Finset.image_subset_image
    exact Finset.Ico_subset_Ico_right (Nat.le_of_lt hu)
  unfold allocCost
  omega

theorem newTabs_succ (d : PgDir) (v : Nat)
    : newTabs d v (v + 1) = if d.tab (v / NPTENTRIES) = none then {v / NPTENTRIES} else ∅ := by
  unfold newTabs
  rw [Nat.Ico_succ_singleton, Finset.image_singleton, Finset.filter_singleton]

theorem PgDir.clear_absent (hd : d.Wf) (habsent : (d.pte v).present = false) : d.clear v (v + 1) = d := by
  rw [← PgDir.clear_skip (v := v + 1) _ (Nat.le_succ v), d.clear_of_le (Nat.le_refl _)]
  intro u hvu hu
  apply hd.zero
  rwa [show u = v by omega]

-- The handler of a page fault asks for one page, which may be there already.
theorem allocuvm_page_cases (hd : d.Wf) (hv : v + 1 < UPAGES) (hs : m.Sound (Valid L) d.frames)
    : ((d.pte v).present = false ∧ (2 ≤ m.free.length ∨ (m.free ≠ [] ∧ (d.tab (v / NPTENTRIES)).isSome)) ∧
        ∃ d' m' Δ, allocuvm L d (v * PGSIZE) ((v + 1) * PGSIZE) m = .ok ((v + 1) * PGSIZE, d', m') ∧
        Grows d m d' m' {v} Δ ∧ Fresh d' m' {v}) ∨
      ((d.pte v).present = false ∧ ¬ (2 ≤ m.free.length ∨ (m.free ≠ [] ∧ (d.tab (v / NPTENTRIES)).isSome)) ∧
        ∃ m', allocuvm L d (v * PGSIZE) ((v + 1) * PGSIZE) m = .ok (0, d, m')) ∨
      ((d.pte v).present = true ∧ m.free = [] ∧
        ∃ m', allocuvm L d (v * PGSIZE) ((v + 1) * PGSIZE) m = .ok (0, d.clear v (v + 1), m')) ∨
      ((d.pte v).present = true ∧ m.free ≠ [] ∧
        allocuvm L d (v * PGSIZE) ((v + 1) * PGSIZE) m = .error (.panic "remap")) := by
  have hkern : (v + 1) * PGSIZE < KERNBASE := by
    unfold UPAGES KERNBASE PGSIZE at *
    omega
  have hstart : npages (v * PGSIZE) = v := by
    unfold npages PGSIZE
    omega
  have hend : npages ((v + 1) * PGSIZE) = v + 1 := by
    unfold npages PGSIZE
    omega
  have hone : ∀ {w d1 m1 Δ}, w < v + 1 → Fills d m v w d1 m1 Δ → w = v ∧ d1 = d ∧ m1.free.length = m.free.length := by
    intro w d1 m1 Δ hw h
    have hwv : w = v := by
      have := h.le
      omega
    subst hwv
    have hcost := h.cost (by omega)
    simp only [allocCost, newTabs, Finset.Ico_self, Finset.image_empty, Finset.filter_empty, Finset.card_empty,
      Nat.sub_self, Nat.add_zero] at hcost
    exact ⟨rfl, h.eq_of_empty, hcost.symm⟩
  have hcases := allocuvm_cases hd hs (Nat.mul_le_mul_right PGSIZE (Nat.le_succ v)) hkern
  generalize allocuvm L d (v * PGSIZE) ((v + 1) * PGSIZE) m = r at hcases
  cases hcases with
  | done d' m' Δ h =>
    rw [hstart, hend] at h
    have hcost := h.cost (Nat.le_of_lt hv)
    unfold allocCost at hcost
    rw [newTabs_succ] at hcost
    have hset : Set.Ico v (v + 1) = {v} := by
      ext u
      rw [Set.mem_Ico, Set.mem_singleton_iff]
      omega
    refine .inl ⟨h.absent v ⟨Nat.le_refl v, Nat.lt_succ_self v⟩, ?_, d', m', Δ, rfl, h.grows.congr hset,
      hset ▸ h.fresh⟩
    cases htab : d.tab (v / NPTENTRIES) with
    | none =>
      rw [htab, if_pos rfl, Finset.card_singleton] at hcost
      left
      omega
    | some p =>
      refine .inr ⟨?_, rfl⟩
      intro hempty
      rw [hempty, List.length_nil] at hcost
      omega
  | failed w d1 m1 m2 Δ Δ' h hw hfree hshrinks =>
    rw [hstart] at h
    rw [hend] at hw
    obtain ⟨rfl, rfl, hlen⟩ := hone hw h
    rw [hstart, hend]
    cases hpresent : (d1.pte w).present with
    | false =>
      refine .inr (.inl ⟨rfl, ?_, m2, by rw [PgDir.clear_absent hd hpresent]⟩)
      rw [← List.length_pos_iff_ne_nil, ← hlen]
      rcases hfree with hfree | ⟨hfree, htab⟩
      . simp [hfree]
      . simp [hfree, htab]
    | true =>
      refine .inr (.inr (.inl ⟨rfl, ?_, m2, rfl⟩))
      rcases hfree with hfree | ⟨-, htab⟩
      . rw [← List.length_eq_zero_iff, ← hlen, hfree, List.length_nil]
      . rw [hd.tab w htab] at hpresent
        simp at hpresent
  | remap w d1 m1 Δ h hw hpresent hfree =>
    rw [hstart] at h
    rw [hend] at hw
    obtain ⟨rfl, rfl, hlen⟩ := hone hw h
    refine .inr (.inr (.inr ⟨hpresent, ?_, rfl⟩))
    rwa [← List.length_pos_iff_ne_nil, ← hlen, List.length_pos_iff_ne_nil]

end

end Xv6.Vm
