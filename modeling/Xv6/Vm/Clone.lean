import Xv6.Vm.Lemmas.Room

/-!
`copyuvm`. With enough memory the child's address space is a copy of the parent's in pages of its own, and otherwise
the free pages are the same as before.
-/

namespace Xv6.Vm

-- `d` has the pages of `src` below `sz` with the same flags and contents, in different pages, and no others.
structure Cloned (src : PgDir) (sz : Nat) (m : Mem) (d : PgDir) (m' : Mem) : Prop where
  page : ∀ v, v * PGSIZE < sz → ∃ p, d.pte v = { src.pte v with addr := p } ∧ p ∈ m.free ∧ p ∉ m'.free ∧
    m'.data p = m.data (src.pte v).addr
  distinct : ∀ v w, v * PGSIZE < sz → w * PGSIZE < sz → (d.pte v).addr = (d.pte w).addr → v = w
  absent : ∀ v < UPAGES, sz ≤ v * PGSIZE → (d.pte v).present = false
  data : ∀ p, p ∉ m.free → m'.data p = m.data p
  frames : d.frames + (m'.free : Multiset Ppn) = (m.free : Multiset Ppn)

section

variable {L : Layout} {src d : PgDir} {m m' : Mem} {sz h : Nat}

theorem reach_all (hpresent : ∀ v, v * PGSIZE < sz → (src.pte v).present = true) : Reach src sz (npages sz) where
  le := Nat.le_refl _
  present v hv := hpresent v (lt_npages.mp hv)
  hole := .inl rfl

theorem Copies.cloned (hcopies : Copies src m d m' (Set.Ico 0 (npages sz))) (hb : Built d (npages sz))
    (hx : m.Xfer 0 m' d.frames) (hs : m.Sound (Valid L) src.frames) (hsz : npages sz < UPAGES)
    (hpresent : ∀ v, v * PGSIZE < sz → (src.pte v).present = true)
    : Cloned src sz m d m' := by
  have htotal : d.frames + (m'.free : Multiset Ppn) = (m.free : Multiset Ppn) := by rw [hx.total, zero_add]
  have hnodup : d.frames.Nodup := by
    have := (Multiset.nodup_add.mp hs.nodup).2.1
    rw [← htotal] at this
    exact (Multiset.nodup_add.mp this).1
  have hmapped : ∀ v, v * PGSIZE < sz → v < UPAGES ∧ (d.pte v).present = true := by
    intro v hv
    have hlt := lt_npages.mpr hv
    have hu : v < UPAGES := Nat.lt_trans hlt hsz
    exact ⟨hu, (hb.pages v hu).mpr hlt⟩
  constructor
  . intro v hv
    obtain ⟨hu, hthere⟩ := hmapped v hv
    obtain ⟨p, hpte, hfree, hdata⟩ := hcopies v ⟨Nat.zero_le v, lt_npages.mpr hv⟩
    refine ⟨p, ?_, ?_, hfree, hdata⟩
    . rw [hpte]
      dsimp only
      rw [← hpresent v hv]
    . have hmem := PgDir.addr_mem_frames hu hthere
      rw [hpte] at hmem
      rw [← Multiset.mem_coe, ← htotal, Multiset.mem_add]
      exact .inl hmem
  . intro v w hv hw heq
    exact PgDir.addr_inj hnodup (hmapped v hv).1 (hmapped w hw).1 (hmapped v hv).2 (hmapped w hw).2 heq
  . intro v hv hge
    have := (hb.pages v hv).not.mpr (by rw [lt_npages]; omega)
    simpa using this
  . intro p hp
    apply hx.data
    rwa [zero_add]
  . exact htotal

end

/--
`copyuvm` of an address space without holes either copies it or leaves the free pages as they were, and which of the
two depends on the number of free pages.
-/
theorem copyuvm_all_or_nothing {L : Layout} {src : PgDir} {m : Mem} {sz : Nat} (hsrc : src.Wf)
    (hs : m.Sound (Valid L) src.frames) (hpresent : ∀ v, v * PGSIZE < sz → (src.pte v).present = true)
    : (copyCost (npages sz) ≤ m.free.length ∧
        ∃ d m', copyuvm L src sz m = .ok (some d, m') ∧ Cloned src sz m d m') ∨
      (m.free.length < copyCost (npages sz) ∧
        ∃ m', copyuvm L src sz m = .ok (none, m') ∧ (m'.free : Multiset Ppn) = (m.free : Multiset Ppn) ∧
          ∀ p, p ∉ m.free → m'.data p = m.data p) := by
  have hr := reach_all hpresent
  rcases copyuvm_cases hsrc hs hr with
    ⟨hcost, m', heq, hx⟩ | ⟨-, hlt, -⟩ | ⟨hcost, -, d, m', heq, hb, hx, hcopies⟩
  . refine .inr ⟨hcost, m', heq, by simpa using hx.total, ?_⟩
    intro p hp
    apply hx.data
    rwa [zero_add]
  . rw [← lt_npages] at hlt
    omega
  . exact .inl ⟨hcost, d, m', heq, hcopies.cloned hb hx hs (hr.lt_upages hs) hpresent⟩

-- Three pages, the lowest one a guard page. The copy has one, too.
theorem copyuvm_all_or_nothing_guard
    : ∃ d0 m0 d1 m1 d, setupkvm Layout.small Mem.small = .ok (some d0, m0) ∧
        allocuvm Layout.small d0 0 (3 * PGSIZE) m0 = .ok (3 * PGSIZE, d1, m1) ∧
        clearpteu d1 (0 * PGSIZE) m1 = .ok d ∧
        ∃ d' m', copyuvm Layout.small d (3 * PGSIZE) m1 = .ok (some d', m') ∧ Cloned d (3 * PGSIZE) m1 d' m' ∧
          (d'.pte 0).user = false := by
  have hpages : npages (3 * PGSIZE) = 3 := by decide
  have hcost : spaceCost kernTabs 3 ≤ 200 := by
    rw [spaceCost, kernTabs, card_kernTabs]
    decide
  obtain ⟨d0, m0, d1, m1, hsetup, halloc, hclear, hwithin, hthere, hs, hroom⟩ := guarded_space (by decide) hcost
  obtain ⟨hd, htrades⟩ := clearpteu_trades (m := m1) hwithin.wf hclear
  have hpresent : ∀ v, v * PGSIZE < 3 * PGSIZE →
      ((d1.setPte 0 { d1.pte 0 with user := false }).pte v).present = true := by
    intro v hv
    rw [← lt_npages, hpages] at hv
    rw [PgDir.setPte_pte]
    split
    . exact hthere 0 (by decide)
    . exact hthere v hv
  refine ⟨d0, m0, d1, m1, _, hsetup, halloc, hclear, ?_⟩
  rcases copyuvm_all_or_nothing htrades.wf (htrades.xfer.sound hs) hpresent with ⟨-, d', m', hcopy, hcloned⟩ | ⟨hlt, -⟩
  . refine ⟨d', m', hcopy, hcloned, ?_⟩
    obtain ⟨p, hpte, -⟩ := hcloned.page 0 (by decide)
    rw [hpte, PgDir.setPte_pte, if_pos rfl]
  . rw [hpages] at hlt
    rw [spaceCost, kernTabs, card_kernTabs] at hroom
    unfold copyCost at hlt
    have htabs : tabsFor 3 = 1 := by decide
    omega

end Xv6.Vm
