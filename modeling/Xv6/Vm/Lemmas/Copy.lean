import Xv6.Vm.Lemmas.Setup

/-!
`copyuvm`. It copies the pages from the bottom up to the first one that is missing, which it does not
survive. What it needs to get there is `copyCost`.
-/

namespace Xv6.Vm

-- The page tables for the pages below `v`.
def tabsFor (v : Nat) : Nat :=
  (v + (NPTENTRIES - 1)) / NPTENTRIES

-- A page directory with the kernel's part and the pages below `v`.
def copyCost (v : Nat) : Nat :=
  65 + v + tabsFor v

-- `h` is the first page below `sz` that is missing, or the end of the address space if there is none.
structure Reach (d : PgDir) (sz h : Nat) : Prop where
  le : h ≤ npages sz
  present : ∀ w < h, (d.pte w).present = true
  hole : h = npages sz ∨ (d.pte h).present = false

section

variable {L : Layout} {src d d' : PgDir} {m m' : Mem} {v : Nat}

theorem exists_reach (d : PgDir) (sz : Nat) : ∃ h, Reach d sz h := by
  have hex : ∃ h, h = npages sz ∨ (d.pte h).present = false := ⟨npages sz, .inl rfl⟩
  classical
  refine ⟨Nat.find hex, ?_, ?_, Nat.find_spec hex⟩
  . exact Nat.find_min' hex (.inl rfl)
  . intro w hw
    have := Nat.find_min hex hw
    rw [not_or, Bool.not_eq_false] at this
    exact this.2

theorem Valid.mem_range {p : Ppn} (h : Valid L p) : p ∈ Finset.range 57344 := by
  have hlt : Nat.mul p 4096 < 234881024 := h.2
  rw [Finset.mem_range]
  rw [Nat.mul_eq] at hlt
  omega

-- There is not enough physical memory for all of the user's address space.
theorem exists_absent (hs : m.Sound (Valid L) src.frames) : ∃ w < UPAGES, (src.pte w).present = false := by
  by_contra hall
  have hpresent : ∀ w < UPAGES, (src.pte w).present = true := by
    intro w hw
    by_contra hw'
    exact hall ⟨w, hw, by simpa using hw'⟩
  have hcount : pageCount src = UPAGES := by
    unfold pageCount
    rw [Finset.filter_true_of_mem, Finset.card_range]
    intro w hw
    exact hpresent w (Finset.mem_range.mp hw)
  have hnodup : src.frames.Nodup := (Multiset.nodup_add.mp hs.nodup).1
  have hle : src.frames.card ≤ 57344 := by
    rw [← Finset.card_range 57344, ← Multiset.toFinset_card_of_nodup hnodup]
    apply Finset.card_le_card
    intro p hp
    rw [Multiset.mem_toFinset] at hp
    apply (hs.valid p _).mem_range
    rw [Multiset.mem_add]
    exact .inl hp
  rw [card_frames, hcount] at hle
  unfold UPAGES KERNBASE PGSIZE at hle
  omega

theorem Reach.lt_upages {sz h : Nat} (hr : Reach src sz h) (hs : m.Sound (Valid L) src.frames)
    : h < UPAGES := by
  obtain ⟨w, hw, habsent⟩ := exists_absent hs
  by_contra hge
  have := hr.present w (by omega)
  simp [habsent] at this

-- What `copyuvm` has built when it comes to the page `v`.
structure Built (d : PgDir) (v : Nat) : Prop where
  wf : d.Wf
  pages : ∀ w < UPAGES, (d.pte w).present = true ↔ w < v
  tabs : ∀ i, (d.tab i).isSome ↔ KernTab i ∨ i < tabsFor v

theorem Built.zero (hd : d.Wf) (htabs : ∀ i, (d.tab i).isSome ↔ KernTab i)
    (hpages : ∀ w < UPAGES, (d.pte w).present = false)
    : Built d 0 where
  wf := hd
  pages w hw := by simp [hpages w hw]
  tabs i := by simp [htabs, tabsFor, NPTENTRIES]

theorem Built.card (h : Built d v) (hv : v ≤ UPAGES) : d.frames.card = copyCost v := by
  have hpages : pageCount d = v := by
    unfold pageCount
    have : (Finset.range UPAGES).filter (fun w => (d.pte w).present) = Finset.range v := by
      ext w
      rw [Finset.mem_filter, Finset.mem_range, Finset.mem_range]
      constructor
      . intro hw
        exact (h.pages w hw.1).mp hw.2
      . intro hw
        have hw' : w < UPAGES := by omega
        exact ⟨hw', (h.pages w hw').mpr hw⟩
    rw [this, Finset.card_range]
  have hle : tabsFor v ≤ 512 := by
    unfold UPAGES KERNBASE PGSIZE at hv
    unfold tabsFor NPTENTRIES
    omega
  have htabs : tabCount d = 64 + tabsFor v := by
    have huser : (Finset.range NPDENTRIES).filter (fun i => i < tabsFor v) = Finset.range (tabsFor v) := by
      ext i
      rw [Finset.mem_filter, Finset.mem_range, Finset.mem_range]
      unfold NPDENTRIES
      omega
    unfold tabCount
    simp only [h.tabs]
    rw [Finset.filter_or, Finset.card_union_of_disjoint, card_kernTabs, huser, Finset.card_range]
    . rw [Finset.disjoint_left]
      intro i hi
      rw [Finset.mem_filter] at hi ⊢
      have := hi.2
      unfold KernTab at this
      omega
  rw [card_frames, hpages, htabs]
  unfold copyCost
  omega

theorem lt_tabsFor_succ {i : Nat} : i < tabsFor (v + 1) ↔ i < tabsFor v ∨ i = v / NPTENTRIES := by
  unfold tabsFor NPTENTRIES
  omega

theorem copyCost_lt {h : Nat} (hv : v < h) : copyCost v < copyCost h := by
  unfold copyCost tabsFor NPTENTRIES
  omega

theorem copyCost_succ_lt {h : Nat} (hv : v < h) (htab : ¬ v / NPTENTRIES < tabsFor v)
    : copyCost v + 1 < copyCost h := by
  unfold copyCost tabsFor NPTENTRIES at *
  omega

theorem Built.grows {Δ : Multiset Ppn} (h : Built d v) (hgrows : Grows d m d' m' {v} Δ)
    (hpresent : (d'.pte v).present = true)
    : Built d' (v + 1) where
  wf := hgrows.wf
  pages w hw := by
    by_cases hwv : w = v
    . simp [hwv, hpresent]
    . rw [hgrows.pte w hwv, h.pages w hw]
      omega
  tabs i := by
    rw [lt_tabsFor_succ, ← or_assoc, ← h.tabs]
    constructor
    . intro hi
      rcases hgrows.newtab i hi with hi | ⟨w, rfl, hw⟩
      . exact .inl hi
      . exact .inr hw.symm
    . intro hi
      rcases hi with hi | rfl
      . obtain ⟨p, hp⟩ := Option.isSome_iff_exists.mp hi
        rw [hgrows.tab i p hp]
        rfl
      . exact hgrows.wf.isSome_tab hpresent

-- The copies of the pages of `src` in `V`, as they are in `m₀`.
def Copies (src : PgDir) (m₀ : Mem) : PgDir → Mem → Set Nat → Prop :=
  Filled (fun v => (src.pte v).write) (fun v => (src.pte v).user) fun v => m₀.data (src.pte v).addr

theorem copyLoop_cases (fuel : Nat) {sz h : Nat} {m₀ : Mem} (hsrc : src.Wf) (hr : Reach src sz h) (hh : h < UPAGES)
    (hb : Built d v) (hv : v ≤ h) (hfuel : h < v + fuel) (hnodup : m.free.Nodup)
    (hvalid : ∀ p ∈ d.frames + (m.free : Multiset Ppn), Valid L p)
    (hdata : ∀ w < h, (src.pte w).addr ∉ m.free ∧ m.data (src.pte w).addr = m₀.data (src.pte w).addr)
    : (d.frames.card + m.free.length < copyCost h ∧
        ∃ m', copyLoop L src sz fuel d (v * PGSIZE) m = .ok (none, m') ∧ m.Xfer d.frames m' 0) ∨
      (copyCost h ≤ d.frames.card + m.free.length ∧ h * PGSIZE < sz ∧
        ∃ msg, copyLoop L src sz fuel d (v * PGSIZE) m = .error (.panic msg)) ∨
      (copyCost h ≤ d.frames.card + m.free.length ∧ ¬ h * PGSIZE < sz ∧
        ∃ d' m' Δ, copyLoop L src sz fuel d (v * PGSIZE) m = .ok (some d', m') ∧ Built d' h ∧
        Grows d m d' m' (Set.Ico v h) Δ ∧ Copies src m₀ d' m' (Set.Ico v h)) := by
  induction fuel generalizing d m v with
  | zero => omega
  | succ fuel ih =>
    have hcard := hb.card (by omega)
    rw [hcard]
    have hfreevm : ∀ m1 : Mem, ∃ m2, freevm L d m1 = .ok m2 ∧ m1.Xfer d.frames m2 0 := by
      intro m1
      apply freevm_eq_ok hb.wf
      intro p hp
      exact hvalid p (Multiset.mem_add.mpr (.inl hp))
    unfold copyLoop
    rw [walkpgdir_false_eq, mul_pgsize_div]
    by_cases hvh : v = h
    . subst hvh
      right
      have hcost : copyCost v ≤ copyCost v + m.free.length := Nat.le_add_right _ _
      split
      . next hlt =>
        have habsent : (src.pte v).present = false := by
          rcases hr.hole with heq | habsent
          . rw [← lt_npages] at hlt
            omega
          . exact habsent
        refine .inl ⟨hcost, hlt, ?_⟩
        split
        . exact ⟨_, rfl⟩
        . exact ⟨"copyuvm: page not present", by simp [habsent]⟩
      . next hlt =>
        refine .inr ⟨hcost, hlt, d, m, 0, rfl, hb, .refl hb.wf m _, ?_⟩
        simp [Copies, Filled]
    . have hlt : v < h := by omega
      have hsz : v * PGSIZE < sz := by
        rw [← lt_npages]
        have := hr.le
        omega
      have hpresent := hr.present v hlt
      rw [if_pos hsz, if_pos (hsrc.isSome_tab hpresent)]
      simp only [hpresent, not_true_eq_false, ↓reduceIte]
      cases hp : m.kalloc with
      | none =>
        left
        obtain ⟨m2, heq, hxfer⟩ := hfreevm m
        dsimp only
        rw [heq]
        refine ⟨?_, m2, rfl, hxfer⟩
        have := copyCost_lt hlt
        rw [Mem.kalloc_eq_none.mp hp]
        simpa using this
      | some r =>
        obtain ⟨p, m1⟩ := r
        have hfree := (kalloc_eq_some hp).1
        have hpvalid : Valid L p := by
          apply hvalid
          rw [Multiset.mem_add, hfree]
          simp
        dsimp only
        rcases mapNew_cases (src.pte v).write (src.pte v).user (m1.data (src.pte v).addr) hb.wf
            (Nat.lt_trans hlt hh) (hsrc.write v) hp with
          ⟨hnone, hfree1, heq⟩ | ⟨hthere, heq⟩ | ⟨-, -, d2, m2, Δ, heq, hgrows, hpte, hnew⟩
        . left
          rw [heq]
          dsimp only
          rw [Mem.kfree_of_valid hpvalid]
          obtain ⟨m2, heq2, hxfer⟩ := hfreevm ((Mem.memset (m1.put p (m1.data (src.pte v).addr)) p 1).give p)
          dsimp only
          rw [heq2]
          refine ⟨?_, m2, rfl, ?_⟩
          . have htabs : ¬ v / NPTENTRIES < tabsFor v := by
              intro hmem
              have := (hb.tabs (v / NPTENTRIES)).mpr (.inr hmem)
              simp [hnone] at this
            have := copyCost_succ_lt hlt htabs
            rw [hfree, hfree1]
            simpa using this
          . have h1 := (Mem.kalloc_put_xfer hp (m1.data (src.pte v).addr)).trans
              (Mem.kfree_xfer (Mem.kfree_of_valid hpvalid _))
            have h2 := h1.frame d.frames
            rw [zero_add] at h2
            exact h2.trans hxfer
        . have := (hb.pages v (Nat.lt_trans hlt hh)).mp hthere
          omega
        . rw [heq]
          dsimp only
          rw [uint_next (n := 0) (succ_lt_NPAGES (Nat.lt_trans hlt hh))]
          have hb2 : Built d2 (v + 1) := hb.grows hgrows (by rw [hpte])
          have htotal : d2.frames + (m2.free : Multiset Ppn) = d.frames + (m.free : Multiset Ppn) := by
            rw [hgrows.frames, add_assoc, hgrows.xfer.total, zero_add]
          have hcard2 : d2.frames.card + m2.free.length = copyCost v + m.free.length := by
            rw [← hcard]
            simpa using congrArg Multiset.card htotal
          have hdata2 : ∀ w < h, (src.pte w).addr ∉ m2.free ∧
              m2.data (src.pte w).addr = m₀.data (src.pte w).addr := by
            intro w hw
            obtain ⟨hnot, hsame⟩ := hdata w hw
            exact ⟨fun hmem => hnot (hgrows.free_subset hmem), by rw [hgrows.data_eq hnot, hsame]⟩
          have hcopy : Copies src m₀ d2 m2 {v} := by
            intro w hw
            rw [Set.mem_singleton_iff] at hw
            subst hw
            obtain ⟨hfresh, hsame⟩ := hnew hnodup
            refine ⟨p, hpte, hfresh, ?_⟩
            rw [hsame, (kalloc_eq_some hp).2, (hdata w hlt).2]
          rcases ih hb2 (by omega) (by omega) (hgrows.nodup hnodup) (by rw [htotal]; exact hvalid) hdata2 with
            ⟨hcost, m', heq', hxfer⟩ | ⟨hcost, hrest⟩ | ⟨hcost, hsz', d', m', Δ', heq', hb', hgrows', hcopies'⟩
          . rw [hcard2] at hcost
            refine .inl ⟨hcost, m', heq', ?_⟩
            exact (Trades.of_grows hgrows).xfer.trans hxfer
          . rw [hcard2] at hcost
            exact .inr (.inl ⟨hcost, hrest⟩)
          . rw [hcard2] at hcost
            refine .inr (.inr ⟨hcost, hsz', d', m', Δ + Δ', heq', hb', ?_, ?_⟩)
            . exact (hgrows.trans hgrows').congr (singleton_union_Ico hlt)
            . rw [← singleton_union_Ico hlt]
              exact (hcopy.grows hgrows' (disjoint_singleton_Ico v _)).union hcopies'

theorem copyuvm_cases {sz h : Nat} (hsrc : src.Wf) (hs : m.Sound (Valid L) src.frames) (hr : Reach src sz h)
    : (m.free.length < copyCost h ∧ ∃ m', copyuvm L src sz m = .ok (none, m') ∧ m.Xfer 0 m' 0) ∨
      (copyCost h ≤ m.free.length ∧ h * PGSIZE < sz ∧ ∃ msg, copyuvm L src sz m = .error (.panic msg)) ∨
      (copyCost h ≤ m.free.length ∧ ¬ h * PGSIZE < sz ∧
        ∃ d' m', copyuvm L src sz m = .ok (some d', m') ∧ Built d' h ∧ m.Xfer 0 m' d'.frames ∧
        Copies src m d' m' (Set.Ico 0 h)) := by
  have hh := hr.lt_upages hs
  have hfree : ∀ p ∈ m.free, Valid L p := by
    intro p hp
    apply hs.valid
    rw [Multiset.mem_add]
    exact .inr hp
  unfold copyuvm
  rcases setupkvm_cases hfree with ⟨hlen, d, m1, heq, hwf, hxfer, htabs, hpages⟩ | ⟨hlen, m1, heq, hxfer⟩
  . rw [heq]
    dsimp only
    have hb : Built d 0 := .zero hwf htabs hpages
    have htotal : d.frames + (m1.free : Multiset Ppn) = (m.free : Multiset Ppn) := by
      rw [hxfer.total, zero_add]
    have hlen1 : d.frames.card + m1.free.length = m.free.length := by
      simpa using congrArg Multiset.card htotal
    have hnodup : (d.frames + (m1.free : Multiset Ppn)).Nodup := by
      rw [htotal]
      exact (Multiset.nodup_add.mp hs.nodup).2.1
    have hdata : ∀ w < h, (src.pte w).addr ∉ m1.free ∧
        m1.data (src.pte w).addr = m.data (src.pte w).addr := by
      intro w hw
      have hmem := PgDir.addr_mem_frames (Nat.lt_trans hw hh) (hr.present w hw)
      have hnot := hs.notMem_free hmem
      constructor
      . intro hmem1
        apply hnot
        have : (src.pte w).addr ∈ d.frames + (m1.free : Multiset Ppn) := Multiset.mem_add.mpr (.inr hmem1)
        rw [htotal] at this
        exact this
      . apply hxfer.data
        simpa using hnot
    have hstart : 0 = 0 * PGSIZE := by simp
    rw [hstart]
    have hcases := copyLoop_cases (L := L) NPAGES hsrc hr hh hb (Nat.zero_le h)
      (by have := succ_lt_NPAGES hh; omega) (Multiset.nodup_add.mp hnodup).2.1
      (by rw [htotal]; exact hfree) hdata
    rw [hlen1] at hcases
    rcases hcases with ⟨hcost, m', heq', hx⟩ | hcases | ⟨hcost, hsz, d', m', Δ, heq', hb', hgrows, hcopies⟩
    . exact .inl ⟨hcost, m', heq', hxfer.trans hx⟩
    . exact .inr (.inl hcases)
    . exact .inr (.inr ⟨hcost, hsz, d', m', heq', hb', hxfer.trans (Trades.of_grows hgrows).xfer, hcopies⟩)
  . rw [heq]
    refine .inl ⟨?_, m1, rfl, hxfer⟩
    unfold copyCost
    omega

end

end Xv6.Vm
