import Xv6.Vm.Lemmas.Alloc

/-!
`setupkvm`. It needs 65 pages: the directory, 56 page tables for the physical memory and 8 for the devices.
-/

namespace Xv6.Vm

section

variable {L : Layout} {d d' : PgDir} {m m' : Mem}

theorem Maps.frames_kern {V : Set Nat} {Δ : Multiset Ppn} (h : Maps d m d' m' V Δ)
    (hV : ∀ v ∈ V, UPAGES ≤ v)
    : d'.frames = d.frames + Δ := by
  have hpages : d'.pages = d.pages := by
    apply PgDir.pages_congr
    intro v hv
    apply h.pte
    intro hmem
    have := hV v hmem
    omega
  unfold PgDir.frames
  rw [h.page, h.tabs, hpages]
  simp only [add_comm, add_left_comm]

-- `k` maps the pages from `r.1` to `r.1 + r.2`.
structure Covers (k : Kmap) (r : Nat × Nat) : Prop where
  virt : k.virt = r.1 * PGSIZE
  size : uint (k.physEnd + 2 ^ 32 - k.physStart) = (r.2 + 1) * PGSIZE
  kern : UPAGES ≤ r.1
  lt : r.1 + r.2 < NPAGES

def span (r : Nat × Nat) : Set Nat :=
  Set.Icc r.1 (r.1 + r.2)

def spans (rs : List (Nat × Nat)) : Set Nat :=
  { v | ∃ r ∈ rs, v ∈ span r }

theorem spans_cons (r : Nat × Nat) (rs : List (Nat × Nat)) : spans (r :: rs) = span r ∪ spans rs := by
  ext v
  simp [spans]

theorem Covers.mappages_cases {k : Kmap} {r : Nat × Nat} (hk : Covers k r) (hd : d.Wf)
    (habsent : ∀ w ∈ span r, (d.pte w).present = false)
    : ∃ ok d' m' Δ,
        mappages d k.virt (uint (k.physEnd + 2 ^ 32 - k.physStart)) (k.physStart / PGSIZE) k.write false m
          = .ok (ok, d', m') ∧
        Maps d m d' m' (span r) Δ ∧ (ok = true → ∀ w ∈ span r, (d'.pte w).present = true) ∧
        (ok = false → m'.free = [] ∧ ∃ w ∈ span r, d'.tab (w / NPTENTRIES) = none) := by
  rw [hk.virt, mappages_eq d m hk.lt hk.size]
  apply mappagesLoop_spec r.2 _ hd hk.lt _ hk.kern habsent
  have := hk.lt
  omega

theorem setupLoop_cases {ks : List Kmap} {rs : List (Nat × Nat)} (hks : List.Forall₂ Covers ks rs)
    (hdisj : rs.Pairwise fun r r' => Disjoint (span r) (span r')) (hd : d.Wf)
    (habsent : ∀ w ∈ spans rs, (d.pte w).present = false)
    (hvalid : ∀ p ∈ d.frames + (m.free : Multiset Ppn), Valid L p)
    : (∃ d' m' Δ, setupLoop L ks d m = .ok (some d', m') ∧ Maps d m d' m' (spans rs) Δ ∧
        ∀ w ∈ spans rs, (d'.pte w).present = true) ∨
      ∃ m', setupLoop L ks d m = .ok (none, m') ∧ m.Xfer d.frames m' 0 ∧
        ∃ d1 m1 Δ, Maps d m d1 m1 (spans rs) Δ ∧ m1.free = [] ∧
          ∃ w ∈ spans rs, d1.tab (w / NPTENTRIES) = none := by
  induction hks generalizing d m with
  | nil =>
    refine .inl ⟨d, m, 0, rfl, .refl hd m _, ?_⟩
    rintro w ⟨r, hr, -⟩
    simp at hr
  | @cons k r ks rs hk hks ih =>
    rw [List.pairwise_cons] at hdisj
    rw [spans_cons] at habsent ⊢
    obtain ⟨ok, d1, m1, Δ1, heq, hmaps, htrue, hfalse⟩ :=
      hk.mappages_cases (m := m) hd (fun w hw => habsent w (.inl hw))
    have hkern : ∀ w ∈ span r, UPAGES ≤ w := by
      intro w hw
      exact Nat.le_trans hk.kern hw.1
    have hframes := hmaps.frames_kern hkern
    have htotal : d1.frames + (m1.free : Multiset Ppn) = d.frames + (m.free : Multiset Ppn) := by
      rw [hframes, add_assoc, hmaps.xfer.total, zero_add]
    unfold setupLoop
    rw [heq]
    cases ok with
    | false =>
      right
      obtain ⟨hfree, w, hw, htab⟩ := hfalse rfl
      obtain ⟨m2, hfreevm, hxfer⟩ := freevm_eq_ok (L := L) (m := m1) hmaps.wf (by
        intro p hp
        apply hvalid
        rw [← htotal, Multiset.mem_add]
        exact .inl hp)
      dsimp only
      rw [hfreevm]
      refine ⟨m2, rfl, ?_, d1, m1, Δ1, hmaps.mono (fun w hw => .inl hw), hfree, w, .inl hw, htab⟩
      have := hmaps.xfer.frame d.frames
      rw [zero_add, add_comm Δ1, ← hframes] at this
      exact this.trans hxfer
    | true =>
      dsimp only
      have hpresent := htrue rfl
      have hout : ∀ w ∈ spans rs, w ∉ span r := by
        rintro w ⟨r', hr', hw'⟩ hw
        exact Set.disjoint_left.mp (hdisj.1 r' hr') hw hw'
      have habsent1 : ∀ w ∈ spans rs, (d1.pte w).present = false := by
        intro w hw
        rw [hmaps.pte w (hout w hw)]
        exact habsent w (.inr hw)
      rcases ih (d := d1) (m := m1) hdisj.2 hmaps.wf habsent1 (by rw [htotal]; exact hvalid) with
        ⟨d', m', Δ, heq', hmaps', hpresent'⟩ | ⟨m', heq', hxfer', d2, m2, Δ2, hmaps2, hfree2, w, hw, htab⟩
      . refine .inl ⟨d', m', Δ1 + Δ, heq', hmaps.trans hmaps', ?_⟩
        rintro w (hw | hw)
        . by_cases hw' : w ∈ spans rs
          . exact hpresent' w hw'
          . rw [hmaps'.pte w hw']
            exact hpresent w hw
        . exact hpresent' w hw
      . refine .inr ⟨m', heq', ?_, d2, m2, Δ1 + Δ2, hmaps.trans hmaps2, hfree2, w, .inr hw, htab⟩
        have := hmaps.xfer.frame d.frames
        rw [zero_add, add_comm Δ1, ← hframes] at this
        exact this.trans hxfer'

variable (L) in
def kspans : List (Nat × Nat) :=
  [(UPAGES, EXTMEM / PGSIZE - 1),
   (UPAGES + EXTMEM / PGSIZE, L.data / PGSIZE - EXTMEM / PGSIZE - 1),
   (UPAGES + L.data / PGSIZE, PHYSTOP / PGSIZE - L.data / PGSIZE - 1),
   (DEVSPACE / PGSIZE, (2 ^ 32 - DEVSPACE) / PGSIZE - 1)]

-- The page tables of the kernel's part of the address space.
def KernTab (i : Nat) : Prop :=
  512 ≤ i ∧ i < 568 ∨ 1016 ≤ i ∧ i < 1024

instance (i : Nat) : Decidable (KernTab i) :=
  inferInstanceAs (Decidable (_ ∨ _))

theorem Layout.data_bounds (L : Layout) : ∃ q, L.data = q * 4096 ∧ 256 < q ∧ q < 57344 := by
  have h1 := L.data_aligned
  have h2 := L.extmem_lt
  have h3 := L.data_le
  have h4 := L.kend_lt
  unfold PGSIZE at h1
  unfold EXTMEM at h2
  unfold PHYSTOP at h4
  exact ⟨L.data / 4096, by omega, by omega, by omega⟩

theorem covers_mk {virt physStart physEnd v n : Nat} {write : Bool} (hvirt : virt = v * 4096)
    (hsize : (physEnd + 4294967296 - physStart) % 4294967296 = (n + 1) * 4096) (hkern : 524288 ≤ v)
    (hlt : v + n < 1048576)
    : Covers { virt := virt, physStart := physStart, physEnd := physEnd, write := write } (v, n) where
  virt := hvirt
  size := hsize
  kern := hkern
  lt := hlt

theorem kmap_covers (L : Layout) : List.Forall₂ Covers (kmap L) (kspans L) := by
  obtain ⟨q, hq, hlo, hhi⟩ := L.data_bounds
  unfold kmap kspans UPAGES KERNLINK KERNBASE EXTMEM PHYSTOP DEVSPACE PGSIZE
  rw [hq]
  refine .cons ?_ (.cons ?_ (.cons ?_ (.cons ?_ .nil)))
  all_goals
    apply covers_mk
    . omega
    . omega
    . omega
    . omega

theorem kspans_disjoint (L : Layout)
    : (kspans L).Pairwise fun r r' => Disjoint (span r) (span r') := by
  obtain ⟨q, hq, hlo, hhi⟩ := L.data_bounds
  unfold kspans UPAGES KERNBASE EXTMEM PHYSTOP DEVSPACE PGSIZE
  rw [hq]
  simp only [List.pairwise_cons, List.mem_cons, List.not_mem_nil, or_false, forall_eq_or_imp, forall_eq,
    false_implies, implies_true, List.Pairwise.nil, and_true, Set.disjoint_left, span, Set.mem_Icc]
  refine ⟨⟨?_, ?_, ?_⟩, ⟨?_, ?_⟩, ?_⟩
  all_goals
    intro v hv
    omega

theorem mem_kspans {v : Nat}
    : v ∈ spans (kspans L) ↔ 524288 ≤ v ∧ v < 581632 ∨ 1040384 ≤ v ∧ v < 1048576 := by
  obtain ⟨q, hq, hlo, hhi⟩ := L.data_bounds
  unfold spans kspans UPAGES KERNBASE EXTMEM PHYSTOP DEVSPACE PGSIZE
  rw [hq]
  simp only [span, List.mem_cons, List.not_mem_nil, or_false, Set.mem_ofPred_eq, exists_eq_or_imp,
    exists_eq_left, Set.mem_Icc]
  omega

theorem upages_le_of_mem_kspans {v : Nat} (h : v ∈ spans (kspans L)) : UPAGES ≤ v := by
  rw [mem_kspans] at h
  unfold UPAGES KERNBASE PGSIZE
  omega

theorem kernTab_of_mem {v : Nat} (h : v ∈ spans (kspans L)) : KernTab (v / NPTENTRIES) := by
  rw [mem_kspans] at h
  unfold KernTab NPTENTRIES
  omega

theorem exists_mem_of_kernTab {i : Nat} (h : KernTab i) : ∃ v ∈ spans (kspans L), v / NPTENTRIES = i := by
  refine ⟨i * 1024, ?_, ?_⟩
  . rw [mem_kspans]
    unfold KernTab at h
    omega
  . unfold NPTENTRIES
    omega

def tabCount (d : PgDir) : Nat :=
  ((Finset.range NPDENTRIES).filter fun i => (d.tab i).isSome).card

def pageCount (d : PgDir) : Nat :=
  ((Finset.range UPAGES).filter fun v => (d.pte v).present).card

theorem card_frames (d : PgDir) : d.frames.card = 1 + tabCount d + pageCount d := by
  unfold PgDir.frames PgDir.tabs PgDir.pages tabCount pageCount
  rw [Multiset.card_add, Multiset.card_add, Pool.card_cells, Pool.card_cells, Multiset.card_singleton]
  have hpages : ∀ v, (d.frame v).isSome = (d.pte v).present := by
    intro v
    unfold PgDir.frame
    split
    . next h => simp [h]
    . next h => simp [h]
  simp only [hpages]

theorem card_kernTabs : ((Finset.range NPDENTRIES).filter KernTab).card = 64 := by
  have : (Finset.range NPDENTRIES).filter KernTab = Finset.Ico 512 568 ∪ Finset.Ico 1016 1024 := by
    ext i
    rw [Finset.mem_filter, Finset.mem_range, Finset.mem_union, Finset.mem_Ico, Finset.mem_Ico]
    unfold KernTab NPDENTRIES
    omega
  rw [this, Finset.card_union_of_disjoint]
  . simp
  . rw [Finset.disjoint_left]
    intro i hi
    simp only [Finset.mem_Ico] at hi ⊢
    omega

theorem pageCount_eq_zero (h : ∀ v < UPAGES, (d.pte v).present = false) : pageCount d = 0 := by
  unfold pageCount
  rw [Finset.card_eq_zero, Finset.filter_eq_empty_iff]
  intro v hv
  rw [h v (Finset.mem_range.mp hv)]
  simp

theorem setupkvm_cases (hvalid : ∀ p ∈ m.free, Valid L p)
    : (65 ≤ m.free.length ∧ ∃ d m', setupkvm L m = .ok (some d, m') ∧ d.Wf ∧ m.Xfer 0 m' d.frames ∧
        (∀ i, (d.tab i).isSome ↔ KernTab i) ∧ (∀ v < UPAGES, (d.pte v).present = false)) ∨
      (m.free.length < 65 ∧ ∃ m', setupkvm L m = .ok (none, m') ∧ m.Xfer 0 m' 0) := by
  unfold setupkvm
  cases hp : m.kalloc with
  | none =>
    right
    have := Mem.kalloc_eq_none.mp hp
    exact ⟨by simp [this], m, rfl, .refl m 0⟩
  | some r =>
    obtain ⟨p, m1⟩ := r
    have hfree := (kalloc_eq_some hp).1
    dsimp only
    rw [if_neg (by unfold KERNBASE PHYSTOP DEVSPACE; omega)]
    generalize hd0 : ({ page := p, tab := fun _ => none, pte := fun _ => .zero } : PgDir) = d0
    have hwf : d0.Wf := by
      subst hd0
      constructor <;> simp [Pte.zero]
    have htab0 : ∀ i, d0.tab i = none := by
      subst hd0
      simp
    have hpte0 : ∀ v, (d0.pte v).present = false := by
      subst hd0
      simp [Pte.zero]
    have hcard0 : d0.frames.card = 1 := by
      rw [card_frames, pageCount_eq_zero fun v _ => hpte0 v]
      unfold tabCount
      simp [htab0]
    have hframes0 : d0.frames = {p} := by
      obtain ⟨q, hq⟩ := Multiset.card_eq_one.mp hcard0
      have := d0.page_mem_frames
      rw [hq, Multiset.mem_singleton] at this
      rw [hq, ← this, ← hd0]
    have hxfer0 : m.Xfer 0 (m1.memset p 0) d0.frames := by
      rw [hframes0]
      exact Mem.kalloc_put_xfer hp _
    rcases setupLoop_cases (L := L) (m := m1.memset p 0) (kmap_covers L) (kspans_disjoint L) hwf
        (fun w _ => hpte0 w) (by
          intro q hq
          rw [hxfer0.total] at hq
          exact hvalid q (by simpa using hq)) with
      ⟨d, m', Δ, heq, hmaps, hpresent⟩ | ⟨m', heq, hxfer, d1, m2, Δ, hmaps, hfree2, w, hw, htab⟩
    . left
      have hframes := hmaps.frames_kern fun v => upages_le_of_mem_kspans
      have hxfer : m.Xfer 0 m' d.frames := by
        have := hmaps.xfer.frame d0.frames
        rw [zero_add, add_comm Δ, ← hframes] at this
        exact hxfer0.trans this
      have htabs : ∀ i, (d.tab i).isSome ↔ KernTab i := by
        intro i
        constructor
        . intro hi
          rcases hmaps.newtab i hi with hi | ⟨v, hv, rfl⟩
          . simp [htab0] at hi
          . exact kernTab_of_mem hv
        . intro hi
          obtain ⟨v, hv, rfl⟩ := exists_mem_of_kernTab (L := L) hi
          exact hmaps.wf.isSome_tab (hpresent v hv)
      have hpages : ∀ v < UPAGES, (d.pte v).present = false := by
        intro v hv
        rw [hmaps.pte v]
        . exact hpte0 v
        . intro hmem
          have := upages_le_of_mem_kspans hmem
          omega
      have hcard := hxfer.card
      rw [card_frames, pageCount_eq_zero hpages] at hcard
      unfold tabCount at hcard
      simp only [htabs, card_kernTabs, Multiset.card_zero] at hcard
      exact ⟨by omega, d, m', heq, hmaps.wf, hxfer, htabs, hpages⟩
    . right
      refine ⟨?_, m', heq, hxfer0.trans hxfer⟩
      have hframes := hmaps.frames_kern fun v => upages_le_of_mem_kspans
      have hx : m.Xfer 0 m2 d1.frames := by
        have := hmaps.xfer.frame d0.frames
        rw [zero_add, add_comm Δ, ← hframes] at this
        exact hxfer0.trans this
      have hcard := hx.card
      have hpages : ∀ v < UPAGES, (d1.pte v).present = false := by
        intro v hv
        rw [hmaps.pte v]
        . exact hpte0 v
        . intro hmem
          have := upages_le_of_mem_kspans hmem
          omega
      -- the table for `w` is missing
      have hlt : tabCount d1 < 64 := by
        rw [← card_kernTabs]
        apply Finset.card_lt_card
        rw [Finset.ssubset_iff_of_subset]
        . refine ⟨w / NPTENTRIES, ?_, ?_⟩
          . have := kernTab_of_mem hw
            rw [Finset.mem_filter, Finset.mem_range]
            refine ⟨?_, this⟩
            unfold KernTab at this
            unfold NPDENTRIES
            omega
          . simp [htab]
        . intro i hi
          rw [Finset.mem_filter] at hi ⊢
          refine ⟨hi.1, ?_⟩
          rcases hmaps.newtab i hi.2 with hi' | ⟨v, hv, rfl⟩
          . simp [htab0] at hi'
          . exact kernTab_of_mem hv
      rw [card_frames, pageCount_eq_zero hpages, hfree2] at hcard
      simp only [Multiset.card_zero, List.length_nil] at hcard
      omega

end

end Xv6.Vm
