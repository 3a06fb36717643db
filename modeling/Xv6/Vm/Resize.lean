import Xv6.Vm.Lemmas.Cost
import Xv6.Vm.Lemmas.Kernel

/-!
What `allocuvm`, `deallocuvm` and `growproc` do to an address space as a whole, however much memory there is.
-/

namespace Xv6.Vm

-- The pages that begin in `[PGROUNDUP(lo), hi)`.
def pagesIn (lo hi : Nat) : Set Nat :=
  { v | pgroundup lo ≤ v * PGSIZE ∧ v * PGSIZE < hi }

theorem pagesIn_eq {lo : Nat} (hi : Nat) (h : lo ≤ KERNBASE) : pagesIn lo hi = Set.Ico (npages lo) (npages hi) := by
  ext v
  unfold pagesIn
  rw [pgroundup_eq_npages h, Set.mem_Ico, lt_npages]
  apply and_congr_left
  intro _
  exact Nat.mul_le_mul_right_iff (by decide)

-- The pages in `V` are new ones, and nothing else has changed.
structure Allotted (V : Set Nat) (d : PgDir) (m : Mem) (d' : PgDir) (m' : Mem) : Prop where
  new : ∀ v ∈ V, ∃ p, d'.pte v = { addr := p, present := true, write := true, user := true } ∧
    p ∈ m.free ∧ p ∉ m'.free ∧ m'.data p = fun _ => 0
  distinct : ∀ v ∈ V, ∀ w ∈ V, (d'.pte v).addr = (d'.pte w).addr → v = w
  kept : ∀ v, v ∉ V → d'.pte v = d.pte v
  data : ∀ p, p ∉ m.free → m'.data p = m.data p
  frames : d'.frames + (m'.free : Multiset Ppn) = d.frames + (m.free : Multiset Ppn)

-- All translations are as before, and of the free pages only some have become page tables.
structure Restored (d : PgDir) (m : Mem) (d' : PgDir) (m' : Mem) : Prop where
  pte : d'.pte = d.pte
  data : ∀ p, p ∉ m.free → m'.data p = m.data p
  free : ∃ Δ, d'.tabs = d.tabs + Δ ∧ (m.free : Multiset Ppn) = Δ + (m'.free : Multiset Ppn)

section

variable {L : Layout} {d d' d1 : PgDir} {m m' m1 m2 : Mem} {v w lo hi : Nat} {Δ Δ' : Multiset Ppn}

theorem PgDir.tabs_mono (htab : ∀ i p, d.tab i = some p → d'.tab i = some p) : d.tabs ≤ d'.tabs := by
  unfold tabs
  exact Pool.cells_mono fun i _ => htab i

theorem PgDir.pages_mono (hpte : ∀ u < UPAGES, (d.pte u).present = true → d'.pte u = d.pte u)
    : d.pages ≤ d'.pages := by
  unfold pages
  apply Pool.cells_mono
  intro u hu p hp
  have hpresent := (frame_eq_some.mp hp).1
  unfold frame at *
  rwa [hpte u (Finset.mem_range.mp hu) hpresent]

theorem PgDir.frames_mono (hpage : d'.page = d.page) (htab : ∀ i p, d.tab i = some p → d'.tab i = some p)
    (hpte : ∀ u < UPAGES, (d.pte u).present = true → d'.pte u = d.pte u)
    : d.frames ≤ d'.frames := by
  unfold frames
  rw [hpage]
  exact add_le_add (add_le_add_right (tabs_mono htab) _) (pages_mono hpte)

theorem Fills.addr_mem_free (h : Fills d m lo hi d' m' Δ) (hs : m.Sound (Valid L) d.frames) (hhi : hi ≤ UPAGES)
    (hv : v ∈ Set.Ico lo hi)
    : (d'.pte v).addr ∈ m.free := by
  have hu : v < UPAGES := Nat.lt_of_lt_of_le hv.2 hhi
  have hs' := (Trades.of_grows h.grows).xfer.sound hs
  have hpresent := h.present hv
  -- all that `d` holds is held without the page at `v`
  have hle : d.frames ≤ (d'.setPte v .zero).frames := by
    refine PgDir.frames_mono (show (d'.setPte v .zero).page = d.page from h.grows.page) h.grows.tab ?_
    intro u _ hold
    have hnot : u ∉ Set.Ico lo hi := by
      intro hmem
      simp [h.absent u hmem] at hold
    have hne : u ≠ v := by
      rintro rfl
      exact hnot hv
    rw [PgDir.setPte_pte, if_neg hne, h.grows.pte u hnot]
  have hsplit : (d'.setPte v .zero).frames + {(d'.pte v).addr} = d'.frames := by
    unfold PgDir.frames
    rw [PgDir.setPte_page, PgDir.setPte_tabs, add_assoc, PgDir.setPte_pages_remove hu hpresent rfl]
  have hnot : (d'.pte v).addr ∉ d.frames := by
    intro hmem
    have hnodup := (Multiset.nodup_add.mp hs'.nodup).1
    rw [← hsplit, Multiset.nodup_add] at hnodup
    exact Multiset.disjoint_left.mp hnodup.2.2 (Multiset.mem_of_le hle hmem) (Multiset.mem_singleton_self _)
  have hmem : (d'.pte v).addr ∈ d'.frames + (m'.free : Multiset Ppn) :=
    Multiset.mem_add.mpr (.inl (PgDir.addr_mem_frames hu hpresent))
  rw [(Trades.of_grows h.grows).xfer.total, Multiset.mem_add] at hmem
  exact hmem.resolve_left hnot

theorem Fills.allotted (h : Fills d m lo hi d' m' Δ) (hs : m.Sound (Valid L) d.frames) (hhi : hi ≤ UPAGES)
    : Allotted (Set.Ico lo hi) d m d' m' where
  new v hv := by
    obtain ⟨p, hpte, hfree, hdata⟩ := h.fresh v hv
    have hmem := h.addr_mem_free hs hhi hv
    rw [hpte] at hmem
    exact ⟨p, hpte, hmem, hfree, hdata⟩
  distinct v hv w hw heq := by
    have hs' := (Trades.of_grows h.grows).xfer.sound hs
    exact PgDir.addr_inj (Multiset.nodup_add.mp hs'.nodup).1 (Nat.lt_of_lt_of_le hv.2 hhi)
      (Nat.lt_of_lt_of_le hw.2 hhi) (h.present hv) (h.present hw) heq
  kept := h.grows.pte
  data p hp := h.grows.data_eq hp
  frames := (Trades.of_grows h.grows).xfer.total

-- The pages are taken back, and of what came off the free list only the page tables are missing.
theorem Fills.restored (h : Fills d m lo w d1 m1 Δ) (hd : d.Wf) (hw : w ≤ hi)
    (habsent : ∀ v ∈ Set.Ico lo hi, (d.pte v).present = false)
    (hshrinks : Shrinks d1 m1 (d1.clear lo hi) m2 Δ')
    : Restored d m (d1.clear lo hi) m2 := by
  have hpte : (d1.clear lo hi).pte = d.pte := by
    funext v
    rw [PgDir.clear_pte]
    split
    . next hv => rw [hd.zero v (habsent v hv)]
    . next hv =>
      apply h.grows.pte
      rw [Set.mem_Ico]
      omega
  have hpages : (d1.clear lo hi).pages = d.pages := PgDir.pages_congr fun v _ => congrFun hpte v
  have htabs : d.tabs ≤ (d1.clear lo hi).tabs := PgDir.tabs_mono h.grows.tab
  obtain ⟨Γ, hΓ⟩ := Multiset.le_iff_exists_add.mp htabs
  have hframes : (d1.clear lo hi).frames = d.frames + Γ := by
    unfold PgDir.frames
    rw [hΓ, hpages, hshrinks.page, h.grows.page]
    simp only [add_comm, add_left_comm]
  have hout : Γ + Δ' = Δ := by
    have := hshrinks.frames
    rw [hframes, h.grows.frames, add_assoc] at this
    exact add_left_cancel this
  have hfree : (m.free : Multiset Ppn) = Γ + (m2.free : Multiset Ppn) := by
    have h1 := h.grows.xfer.total
    have h2 := hshrinks.xfer.total
    rw [zero_add] at h1 h2
    rw [← h1, h2, ← hout, add_assoc]
  refine ⟨hpte, ?_, Γ, hΓ, hfree⟩
  intro p hp
  rw [hshrinks.xfer.data, h.grows.data_eq hp]
  intro hmem
  apply hp
  rw [Multiset.mem_add] at hmem
  rw [← Multiset.mem_coe, ← zero_add (m.free : Multiset Ppn), ← h.grows.xfer.total, ← hout]
  rcases hmem with hmem | hmem
  . simp [hmem]
  . simp [hmem]

theorem PgDir.mem_mapped {p : Ppn}
    : p ∈ d.mapped lo hi ↔ ∃ v ∈ Set.Ico lo hi, (d.pte v).present = true ∧ (d.pte v).addr = p := by
  unfold mapped
  rw [List.mem_filterMap]
  simp only [List.Ico.mem, frame_eq_some, Set.mem_Ico]

theorem PgDir.mapped_nodup (hnodup : d.frames.Nodup) (hhi : hi ≤ UPAGES) : (d.mapped lo hi).Nodup := by
  unfold mapped
  apply List.pairwise_filterMap.mpr
  apply List.Pairwise.imp_of_mem _ (List.Ico.pairwise_lt lo hi)
  intro v w hv hw hlt p hp q hq heq
  rw [List.Ico.mem] at hv hw
  obtain ⟨hpv, rfl⟩ := frame_eq_some.mp hp
  obtain ⟨hpw, rfl⟩ := frame_eq_some.mp hq
  have := addr_inj hnodup (by omega) (by omega) hpv hpw heq
  omega

end

-- `kfree` has been called for the pages in `V` that were present, once for each of them and for no other page.
structure Freed (L : Layout) (V : Set Nat) (d : PgDir) (m : Mem) (d' : PgDir) (m' : Mem) : Prop where
  absent : ∀ v ∈ V, (d'.pte v).present = false
  kept : ∀ v, v ∉ V → d'.pte v = d.pte v
  page : d'.page = d.page
  tab : d'.tab = d.tab
  kfree : ∃ ps : List Ppn, ps.Nodup ∧ ps.foldlM (Mem.kfree L) m = .ok m' ∧
    ∀ p, p ∈ ps ↔ ∃ v ∈ V, (d.pte v).present = true ∧ (d.pte v).addr = p

/--
However the pages lie, `deallocuvm` frees those that are present in the range.
-/
theorem deallocuvm_frees_present {L : Layout} {d : PgDir} {m : Mem} {oldsz newsz : Nat} (hd : d.Wf)
    (hs : m.Sound (Valid L) d.frames) (hlt : newsz < oldsz) (hle : oldsz ≤ KERNBASE)
    : ∃ d' m', deallocuvm L d oldsz newsz m = .ok (newsz, d', m') ∧ Freed L (pagesIn newsz oldsz) d m d' m' := by
  have hhi := npages_le_upages hle
  rw [pagesIn_eq oldsz (by omega)]
  have hvalid : ∀ p ∈ d.mapped (npages newsz) (npages oldsz), Valid L p := by
    intro p hp
    obtain ⟨v, hv, hpresent, rfl⟩ := PgDir.mem_mapped.mp hp
    apply hs.valid
    rw [Multiset.mem_add]
    exact .inl (PgDir.addr_mem_frames (Nat.lt_of_lt_of_le hv.2 hhi) hpresent)
  obtain ⟨m', hm'⟩ := foldlM_kfree_eq_ok hvalid m
  refine ⟨d.clear (npages newsz) (npages oldsz), m', ?_, ?_⟩
  . rw [deallocuvm_eq hd hle hlt, hm']
    rfl
  . constructor
    . intro v hv
      rw [Set.mem_Ico] at hv
      rw [PgDir.clear_pte, if_pos hv]
      rfl
    . intro v hv
      rw [Set.mem_Ico] at hv
      rw [PgDir.clear_pte, if_neg hv]
    . rfl
    . rfl
    . exact ⟨_, PgDir.mapped_nodup (Multiset.nodup_add.mp hs.nodup).1 hhi, hm', fun p => PgDir.mem_mapped⟩

/--
`allocuvm` is all or nothing. It maps every page of the range to a new page full of zeros, or it returns 0 and all
that it took has gone back to the free list, except for page tables.
-/
theorem allocuvm_all_or_nothing {L : Layout} {d : PgDir} {m : Mem} {oldsz newsz : Nat} (hd : d.Wf)
    (hs : m.Sound (Valid L) d.frames) (hle : oldsz ≤ newsz) (hlt : newsz < KERNBASE)
    (habsent : ∀ v ∈ pagesIn oldsz newsz, (d.pte v).present = false)
    : ∃ r d' m', allocuvm L d oldsz newsz m = .ok (r, d', m') ∧
        ((r = newsz ∧ Allotted (pagesIn oldsz newsz) d m d' m') ∨ (r = 0 ∧ Restored d m d' m')) := by
  have hhi := npages_le_upages (Nat.le_of_lt hlt)
  rw [pagesIn_eq newsz (by omega)] at habsent ⊢
  have hcases := allocuvm_cases hd hs hle hlt
  generalize allocuvm L d oldsz newsz m = r at hcases
  cases hcases with
  | done d' m' Δ h => exact ⟨newsz, d', m', rfl, .inl ⟨rfl, h.allotted hs hhi⟩⟩
  | failed w d1 m1 m2 Δ Δ' h hw hfree hshrinks =>
    exact ⟨0, _, m2, rfl, .inr ⟨rfl, h.restored hd (Nat.le_of_lt hw) habsent hshrinks⟩⟩
  | remap w d1 m1 Δ h hw hpresent hfree => simp [habsent w ⟨h.le, hw⟩] at hpresent

-- The first process with its page, and 300 pages more than there are.
theorem allocuvm_all_or_nothing_boot
    : ∃ d kstack m, userinit Layout.small [] Mem.small = .ok (bootState d kstack m) ∧
        ∃ r d' m', allocuvm Layout.small d PGSIZE (300 * PGSIZE) m = .ok (r, d', m') ∧
          ((r = 300 * PGSIZE ∧ Allotted (pagesIn PGSIZE (300 * PGSIZE)) d m d' m') ∨ (r = 0 ∧ Restored d m d' m')) := by
  obtain ⟨d, kstack, m, hboot, hb, -, -⟩ := Mem.small_boot
  have hinv := (userinit_inv Mem.small_sound hboot).1
  refine ⟨d, kstack, m, hboot, allocuvm_all_or_nothing hb.wf (hinv.sound_pgdir (p := 0) rfl) (by decide) (by decide) ?_⟩
  intro v hv
  rw [pagesIn_eq _ (by decide)] at hv
  have hu : v < UPAGES := Nat.lt_of_lt_of_le hv.2 (by decide)
  have hlow : ¬ v < 1 := Nat.not_lt.mpr hv.1
  simpa using (hb.pages v hu).not.mpr hlow

theorem deallocuvm_frees_present_boot
    : ∃ d kstack m, userinit Layout.small [] Mem.small = .ok (bootState d kstack m) ∧
        ∃ d' m', deallocuvm Layout.small d KERNBASE 0 m = .ok (0, d', m') ∧
          Freed Layout.small (pagesIn 0 KERNBASE) d m d' m' := by
  obtain ⟨d, kstack, m, hboot, hb, -, -⟩ := Mem.small_boot
  have hinv := (userinit_inv Mem.small_sound hboot).1
  exact ⟨d, kstack, m, hboot,
    deallocuvm_frees_present hb.wf (hinv.sound_pgdir (p := 0) rfl) (by decide) (Nat.le_refl _)⟩

-- The page `v` is mapped as before and has the same contents.
def Kept (x : Proc) (m : Mem) (x' : Proc) (m' : Mem) (v : Nat) : Prop :=
  x'.pgdir.pte v = x.pgdir.pte v ∧
    ((x.pgdir.pte v).present = true → m'.data (x.pgdir.pte v).addr = m.data (x.pgdir.pte v).addr)

-- The page `v` is mapped to a page that was free and is full of zeros.
def New (m : Mem) (x' : Proc) (m' : Mem) (v : Nat) : Prop :=
  ∃ p ∈ m.free, x'.pgdir.pte v = { addr := p, present := true, write := true, user := true } ∧
    m'.data p = fun _ => 0

-- `growproc` is exact when it returns 0, and does nothing to the process when it returns -1, unless it panics.
def GrowOk (n : Word) (x : Proc) (m : Mem) : Res (Bool × Proc × Mem) → Prop
  | .error (.panic _) => True
  | .error _ => False
  | .ok (true, x', m') =>
    (x'.sz : Int) = x.sz + n.toInt ∧ ∀ v < UPAGES, v * PGSIZE < x'.sz →
      (v * PGSIZE < x.sz → Kept x m x' m' v) ∧ (x.sz ≤ v * PGSIZE → New m x' m' v)
  | .ok (false, x', m') => x'.sz = x.sz ∧ ∀ v < UPAGES, Kept x m x' m' v

/--
The new size is the sum in the integers, or it is refused. Going down, it is not negative, it is zero only if there is
no page to free, and the first page to free is not one that the kernel uses. Going up, no page of the range is there
yet, or the memory lasts until `mappages` panics over it.
-/
structure GrowFits (L : Layout) (n : Word) (x : Proc) (m : Mem) : Prop where
  up : 0 < n.toInt → x.sz + n.toNat < 2 ^ 32 ∨ KERNBASE ≤ uint (x.sz + n.toNat)
  range : 0 < n.toInt → x.sz + n.toNat < KERNBASE → ∀ v, v ∈ Set.Ico (npages x.sz) (npages (x.sz + n.toNat)) →
    (x.pgdir.pte v).present = true → (∀ u ∈ Set.Ico (npages x.sz) v, (x.pgdir.pte u).present = false) →
      allocCost x.pgdir (npages x.sz) v < m.free.length
  down : n.toInt < 0 → x.sz = 0 ∨ 0 ≤ x.sz + n.toInt
  zero : n.toInt < 0 → x.sz + n.toInt = 0 → ∀ v < UPAGES, v * PGSIZE < x.sz → (x.pgdir.pte v).present = false
  kern : n.toInt < 0 → ¬ HitsKernel L (pgroundup (uint (x.sz + n.toNat))) x.sz

section

variable {L : Layout} {x x' : Proc} {d : PgDir} {m m' : Mem} {n : Word}

theorem Kept.refl (x : Proc) (m : Mem) (v : Nat) : Kept x m x m v :=
  ⟨rfl, fun _ => rfl⟩

theorem Word.toInt_pos {n : Word} (h : 0 < n.toInt) : n.toInt = n.toNat := by
  rw [BitVec.toInt_eq_toNat_cond] at *
  split at h
  . rw [if_pos ‹_›]
  . have := n.isLt
    omega

theorem Word.toInt_neg {n : Word} (h : n.toInt < 0) : n.toInt = n.toNat - 2 ^ 32 := by
  rw [BitVec.toInt_eq_toNat_cond] at *
  split at h
  . omega
  . rw [if_neg ‹_›]
    rfl

theorem Kept.of_pte {sz : Nat} {v : Nat} (hs : m.Sound (Valid L) x.pgdir.frames) (hv : v < UPAGES) (hpte : d.pte v = x.pgdir.pte v)
    (hdata : ∀ p, p ∈ x.pgdir.frames → p ∉ m.free → m'.data p = m.data p)
    : Kept x m { x with sz := sz, pgdir := d } m' v := by
  refine ⟨hpte, fun hpresent => ?_⟩
  have hmem := PgDir.addr_mem_frames hv hpresent
  exact hdata _ hmem (hs.notMem_free hmem)

theorem exists_first {P : Nat → Prop} {lo hi v : Nat} (hv : v ∈ Set.Ico lo hi) (h : P v)
    : ∃ u ∈ Set.Ico lo hi, P u ∧ ∀ k ∈ Set.Ico lo u, ¬ P k := by
  classical
  have hex : ∃ u, u ∈ Set.Ico lo hi ∧ P u := ⟨v, hv, h⟩
  obtain ⟨hmem, hP⟩ := Nat.find_spec hex
  refine ⟨Nat.find hex, hmem, hP, ?_⟩
  intro k hk hPk
  rw [Set.mem_Ico] at hk hmem
  exact Nat.find_min hex hk.2 ⟨Set.mem_Ico.mpr (by omega), hPk⟩

theorem growOk_alloc_iff (hd : x.pgdir.Wf) (hs : m.Sound (Valid L) x.pgdir.frames) (hn : 0 < n.toInt)
    (hsz : x.sz + n.toNat < KERNBASE)
    : GrowOk n x m (growproc L n x m) ↔ ∀ v, v ∈ Set.Ico (npages x.sz) (npages (x.sz + n.toNat)) →
        (x.pgdir.pte v).present = true → (∀ u ∈ Set.Ico (npages x.sz) v, (x.pgdir.pte u).present = false) →
          allocCost x.pgdir (npages x.sz) v < m.free.length := by
  have hint := Word.toInt_pos hn
  have hhi := npages_le_upages (Nat.le_of_lt hsz)
  have huint : uint (x.sz + n.toNat) = x.sz + n.toNat := by
    apply uint_eq_self
    unfold KERNBASE at hsz
    omega
  unfold growproc
  rw [if_pos hn, huint]
  have hcases := allocuvm_cases hd hs (Nat.le_add_right x.sz n.toNat) hsz
  generalize allocuvm L x.pgdir x.sz (x.sz + n.toNat) m = r at hcases
  cases hcases with
  | done d' m' Δ h =>
    dsimp only
    rw [if_neg (by omega)]
    have hnew := h.allotted hs hhi
    refine iff_of_true ⟨by dsimp only; omega, ?_⟩ ?_
    . intro v hv hlt
      constructor
      . intro hold
        apply Kept.of_pte hs hv
        . apply hnew.kept
          have := lt_npages.mpr hold
          rw [Set.mem_Ico]
          omega
        . intro p _ hp
          exact hnew.data p hp
      . intro hle
        have hmem : v ∈ Set.Ico (npages x.sz) (npages (x.sz + n.toNat)) := by
          refine ⟨?_, lt_npages.mpr hlt⟩
          rw [← Nat.not_lt, lt_npages]
          omega
        obtain ⟨p, hpte, hfree, -, hdata⟩ := hnew.new v hmem
        exact ⟨p, hfree, hpte, hdata⟩
    . intro v hv hpresent
      simp [h.absent v hv] at hpresent
  | failed w d1 m1 m2 Δ Δ' h hw hfree hshrinks =>
    dsimp only
    rw [if_pos rfl]
    have hcost := h.cost (Nat.le_trans (Nat.le_of_lt hw) hhi)
    constructor
    . rintro ⟨-, hkept⟩ v hv hpresent
      have hpte := (hkept v (Nat.lt_of_lt_of_le hv.2 hhi)).1
      dsimp only at hpte
      rw [PgDir.clear_pte, if_pos (Set.mem_Ico.mp hv)] at hpte
      rw [← hpte] at hpresent
      simp [Pte.zero] at hpresent
    . intro hreach
      have habsent : ∀ v ∈ Set.Ico (npages x.sz) (npages (x.sz + n.toNat)), (x.pgdir.pte v).present = false := by
        intro v hv
        by_contra hpresent
        rw [Bool.not_eq_false] at hpresent
        obtain ⟨u, hu, hpresent, hfirst⟩ := exists_first (P := fun v => (x.pgdir.pte v).present = true) hv hpresent
        have hlt := hreach u hu hpresent fun k hk => by simpa using hfirst k hk
        have hwu : w ≤ u := by
          by_contra hlt
          have := h.absent u ⟨hu.1, by omega⟩
          simp [this] at hpresent
        rcases Nat.eq_or_lt_of_le hwu with rfl | hwu
        . rcases hfree with hfree | ⟨-, htab⟩
          . rw [hfree, List.length_nil] at hcost
            omega
          . have := h.grows.wf.tab w htab
            rw [h.grows.pte w (by simp), hpresent] at this
            simp at this
        . have hle : m1.free.length ≤ 1 := by
            rcases hfree with hfree | ⟨hfree, -⟩
            . simp [hfree]
            . omega
          have := allocCost_lt (d := x.pgdir) h.le hwu
          omega
      have hback := h.restored hd (Nat.le_of_lt hw) habsent hshrinks
      exact ⟨rfl, fun v hv => .of_pte hs hv (congrFun hback.pte v) fun p _ hp => hback.data p hp⟩
  | remap w d1 m1 Δ h hw hpresent hfree =>
    refine iff_of_true trivial ?_
    intro v hv hpv hfirst
    have hvw : v = w := by
      by_contra hne
      rcases Nat.lt_or_gt_of_ne hne with hlt | hgt
      . have := h.absent v ⟨hv.1, hlt⟩
        simp [this] at hpv
      . have := hfirst w ⟨h.le, hgt⟩
        simp [this] at hpresent
    rw [hvw, h.cost (Nat.le_trans (Nat.le_of_lt hw) hhi)]
    have := List.length_pos_iff.mpr hfree
    omega

theorem Shrinks.kept {sz : Nat} {Δ : Multiset Ppn} {v : Nat} (h : Shrinks x.pgdir m d m' Δ)
    (hs : m.Sound (Valid L) x.pgdir.frames) (hv : v < UPAGES) (hpte : d.pte v = x.pgdir.pte v)
    : Kept x m { x with sz := sz, pgdir := d } m' v := by
  refine ⟨hpte, fun hpresent => ?_⟩
  have hmem : (x.pgdir.pte v).addr ∈ d.frames := by
    rw [← hpte] at hpresent ⊢
    exact PgDir.addr_mem_frames hv hpresent
  rw [← h.frames] at hs
  exact h.xfer.data_eq hs hmem

theorem HitsKernel.lt {a sz : Nat} (h : HitsKernel L a sz) : KERNBASE < sz :=
  Nat.lt_of_le_of_lt (Nat.le_trans (Nat.le_add_right _ _) h.1) h.2.2

theorem growOk_shrink_iff (hd : x.pgdir.Wf) (hk : x.pgdir.KernMapped) (hs : m.Sound (Valid L) x.pgdir.frames)
    (hsz : x.sz < 2 ^ 32) (hn : n.toInt < 0) (hle : 0 ≤ x.sz + n.toInt)
    : GrowOk n x m (growproc L n x m) ↔
        (x.sz + n.toInt = 0 → ∀ v < UPAGES, v * PGSIZE < x.sz → (x.pgdir.pte v).present = false) ∧
        ¬ HitsKernel L (pgroundup (uint (x.sz + n.toNat))) x.sz := by
  have hint := Word.toInt_neg hn
  have hlow : -2 ^ 31 ≤ n.toInt := BitVec.le_toInt n
  have hvalid : ∀ w < UPAGES, (x.pgdir.pte w).present = true → Valid L (x.pgdir.pte w).addr :=
    fun w hw hpresent => hs.valid _ (Multiset.mem_add.mpr (.inl (PgDir.addr_mem_frames hw hpresent)))
  unfold growproc
  rw [if_neg (by omega), if_pos hn]
  have huint : (uint (x.sz + n.toNat) : Int) = x.sz + n.toInt := by
    unfold uint
    omega
  generalize uint (x.sz + n.toNat) = newsz at huint
  have hlt : newsz < x.sz := by omega
  cases hdealloc : deallocuvm L x.pgdir x.sz newsz m with
  | error e =>
    have hkern : KERNBASE < x.sz := by
      by_contra hkern
      obtain ⟨m1, Δ, heq, -⟩ := deallocuvm_eq_ok (m := m) hd (Nat.not_lt.mp hkern) hlt hvalid
      rw [hdealloc] at heq
      cases heq
    rcases deallocuvm_kern (L := L) (m := m) hd hk hkern hlt hvalid with ⟨hhits, heq⟩ | ⟨hhits, heq | ⟨r, heq⟩⟩
    . rw [hdealloc] at heq
      cases heq
      exact iff_of_false id fun h => h.2 hhits
    . rw [hdealloc] at heq
      cases heq
      refine iff_of_true trivial ⟨fun hzero => ?_, hhits⟩
      unfold KERNBASE at hkern
      omega
    . rw [hdealloc] at heq
      cases heq
  | ok r =>
    obtain ⟨sz, d, m1⟩ := r
    have hret := deallocuvm_sz hlt hdealloc
    have hclear := deallocuvm_clear hd (Nat.le_of_lt hsz) hdealloc
    obtain ⟨Δ, hshrinks⟩ := deallocuvm_shrinks hd hdealloc
    have hhits : ¬ HitsKernel L (pgroundup newsz) x.sz := by
      intro hhits
      rcases deallocuvm_kern (L := L) (m := m) hd hk hhits.lt hlt hvalid with ⟨-, heq⟩ | ⟨hno, -⟩
      . rw [hdealloc] at heq
        cases heq
      . exact hno hhits
    subst hret
    dsimp only
    split
    . next hzero =>
      have hnone : npages sz = 0 := by rw [hzero]; rfl
      constructor
      . rintro ⟨-, hkept⟩
        refine ⟨fun _ v hv hvsz => ?_, hhits⟩
        have hpte := (hkept v hv).1
        rw [hclear, PgDir.clear_pte, hnone, if_pos ⟨Nat.zero_le v, lt_npages.mpr hvsz⟩] at hpte
        rw [← hpte]
        rfl
      . rintro ⟨habsent, -⟩
        refine ⟨rfl, fun v hv => hshrinks.kept hs hv ?_⟩
        rw [hclear, PgDir.clear_pte]
        split
        . next hrange =>
          rw [hd.zero v (habsent (by omega) v hv (lt_npages.mp hrange.2))]
        . rfl
    . next hne =>
      refine iff_of_true ⟨huint, ?_⟩ ⟨fun hzero => by omega, hhits⟩
      intro v hv hvsz
      refine ⟨fun _ => hshrinks.kept hs hv ?_, fun hge => ?_⟩
      . have : v < npages sz := lt_npages.mpr hvsz
        rw [hclear, PgDir.clear_pte, if_neg (by omega)]
      . dsimp only at hvsz
        omega

-- Below 0 the size wraps around, and `deallocuvm` refuses it.
theorem growOk_wrap_iff (hn : n.toInt < 0) (hlt : x.sz + n.toInt < 0)
    : GrowOk n x m (growproc L n x m) ↔ x.sz = 0 := by
  have hint := Word.toInt_neg hn
  have hlow : -2 ^ 31 ≤ n.toInt := BitVec.le_toInt n
  have huint : uint (x.sz + n.toNat) = x.sz + n.toNat := by
    apply uint_eq_self
    omega
  have hdealloc : deallocuvm L x.pgdir x.sz (x.sz + n.toNat) m = .ok (x.sz, x.pgdir, m) := by
    unfold deallocuvm
    rw [if_pos (Nat.le_add_right _ _)]
  unfold growproc
  rw [if_neg (by omega), if_pos hn, huint, hdealloc]
  dsimp only
  split
  . next hzero => exact iff_of_true ⟨rfl, fun v _ => .refl x m v⟩ hzero
  . next hne =>
    refine iff_of_false ?_ hne
    rintro ⟨hsum, -⟩
    dsimp only at hsum
    omega

theorem growOk_dealloc_iff (hd : x.pgdir.Wf) (hk : x.pgdir.KernMapped) (hs : m.Sound (Valid L) x.pgdir.frames)
    (hsz : x.sz < 2 ^ 32) (hn : n.toInt < 0)
    : GrowOk n x m (growproc L n x m) ↔ (x.sz = 0 ∨ 0 ≤ x.sz + n.toInt) ∧
        (x.sz + n.toInt = 0 → ∀ v < UPAGES, v * PGSIZE < x.sz → (x.pgdir.pte v).present = false) ∧
        ¬ HitsKernel L (pgroundup (uint (x.sz + n.toNat))) x.sz := by
  by_cases hle : 0 ≤ x.sz + n.toInt
  . rw [growOk_shrink_iff hd hk hs hsz hn hle]
    exact (and_iff_right (.inr hle)).symm
  . rw [growOk_wrap_iff hn (Int.not_le.mp hle)]
    constructor
    . intro hzero
      refine ⟨.inl hzero, fun h => absurd (Int.le_of_eq h.symm) hle, fun h => ?_⟩
      exact Nat.not_lt_zero _ (hzero ▸ h.lt)
    . rintro ⟨hzero | hpos, -⟩
      . exact hzero
      . exact absurd hpos hle

end

/--
`growproc` is exact and all or nothing if and only if `GrowFits` holds. The kernel's part of the address space is what
`setupkvm` has made of it.
-/
theorem growproc_exact_iff {L : Layout} {x : Proc} {m : Mem} (n : Word) (hd : x.pgdir.Wf) (hk : x.pgdir.KernMapped)
    (hs : m.Sound (Valid L) x.pgdir.frames) (hsz : x.sz < 2 ^ 32)
    : GrowOk n x m (growproc L n x m) ↔ GrowFits L n x m := by
  rcases Int.lt_trichotomy n.toInt 0 with hn | hn | hn
  . rw [growOk_dealloc_iff hd hk hs hsz hn]
    constructor
    . rintro ⟨hdown, hzero, hkern⟩
      exact ⟨fun h => by omega, fun h => by omega, fun _ => hdown, fun _ => hzero, fun _ => hkern⟩
    . intro h
      exact ⟨h.down hn, h.zero hn, h.kern hn⟩
  . have hgrow : growproc L n x m = .ok (true, x, m) := by
      unfold growproc
      rw [if_neg (by omega), if_neg (by omega)]
    rw [hgrow]
    refine iff_of_true ⟨by omega, fun v _ hv => ⟨fun _ => .refl x m v, fun h => by omega⟩⟩ ?_
    exact ⟨fun h => by omega, fun h => by omega, fun h => by omega, fun h => by omega, fun h => by omega⟩
  . by_cases hlow : x.sz + n.toNat < KERNBASE
    . rw [growOk_alloc_iff hd hs hn hlow]
      constructor
      . intro h
        refine ⟨fun _ => .inl ?_, fun _ _ => h, fun h => by omega, fun h => by omega, fun h => by omega⟩
        unfold KERNBASE at hlow
        omega
      . intro h
        exact h.range hn hlow
    . have hint := Word.toInt_pos hn
      unfold growproc
      rw [if_pos hn]
      by_cases hge : uint (x.sz + n.toNat) ≥ KERNBASE
      . have halloc : allocuvm L x.pgdir x.sz (uint (x.sz + n.toNat)) m = .ok (0, x.pgdir, m) := by
          unfold allocuvm
          rw [if_pos hge]
        rw [halloc]
        refine iff_of_true ⟨rfl, fun v _ => .refl x m v⟩ ?_
        exact ⟨fun _ => .inr hge, fun _ h => absurd h hlow, fun h => by omega, fun h => by omega, fun h => by omega⟩
      . -- the sum has wrapped around
        have hwrap : 2 ^ 32 ≤ x.sz + n.toNat := by
          by_contra hno
          rw [uint_eq_self (by omega)] at hge
          omega
        have hless : uint (x.sz + n.toNat) < x.sz := by
          have := n.isLt
          unfold uint
          omega
        have halloc : allocuvm L x.pgdir x.sz (uint (x.sz + n.toNat)) m = .ok (x.sz, x.pgdir, m) := by
          unfold allocuvm
          rw [if_neg hge, if_pos hless]
        rw [halloc]
        dsimp only
        rw [if_neg (by omega)]
        refine iff_of_false ?_ fun h => (h.up hn).elim (by omega) hge
        rintro ⟨hsum, -⟩
        dsimp only at hsum
        omega

theorem growproc_exact_iff_boot
    : ∃ s x, userinit Layout.small [] Mem.small = .ok s ∧ s.procs 0 = some x ∧
        (GrowOk 4096 x s.mem (growproc Layout.small 4096 x s.mem) ↔ GrowFits Layout.small 4096 x s.mem) := by
  obtain ⟨d, kstack, m, hboot, -⟩ := Mem.small_boot
  have hinv := (userinit_inv Mem.small_sound hboot).1
  have hkern := userinit_kernMapped hboot Mem.small_sound
  exact ⟨_, _, hboot, rfl,
    growproc_exact_iff 4096 (hinv.wf 0 _ rfl) (hkern 0 _ rfl) (hinv.sound_pgdir (p := 0) rfl) (hinv.sz 0 _ rfl)⟩

-- The first process gives back all of its memory, which `growproc` takes for a failure.
theorem growproc_to_zero_frees
    : ∃ s x, userinit Layout.small [] Mem.small = .ok s ∧ s.procs 0 = some x ∧
        ¬ GrowOk (-4096) x s.mem (growproc Layout.small (-4096) x s.mem) := by
  obtain ⟨d, kstack, m, hboot, hb, -⟩ := Mem.small_boot
  have hinv := (userinit_inv Mem.small_sound hboot).1
  have hkern := userinit_kernMapped hboot Mem.small_sound
  refine ⟨_, _, hboot, rfl, ?_⟩
  rw [growOk_dealloc_iff (hinv.wf 0 _ rfl) (hkern 0 _ rfl) (hinv.sound_pgdir (p := 0) rfl) (hinv.sz 0 _ rfl)
    (by decide)]
  rintro ⟨-, hzero, -⟩
  have hpresent : (d.pte 0).present = true := (hb.pages 0 (by decide)).mpr Nat.one_pos
  have habsent : (d.pte 0).present = false := hzero
    (show (PGSIZE : Int) + BitVec.toInt (-4096 : Word) = 0 by decide) 0 (by decide) (show 0 * PGSIZE < PGSIZE by decide)
  simp [hpresent] at habsent

end Xv6.Vm
