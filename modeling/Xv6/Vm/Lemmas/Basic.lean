import Xv6.Vm.Impl.Vm

/-!
Rounding, `kalloc` and `kfree`, and the pages that a page directory holds.
-/

namespace Xv6.Vm

theorem uint_eq_self {n : Nat} (h : n < 2 ^ 32) : uint n = n := by
  unfold uint
  omega

theorem uint_lt (n : Nat) : uint n < 2 ^ 32 := by
  unfold uint
  omega

theorem pgrounddown_mul (v : Nat) : pgrounddown (v * PGSIZE) = v * PGSIZE := by
  unfold pgrounddown PGSIZE
  omega

theorem pgroundup_eq {sz : Nat} (h : sz + PGSIZE ≤ 2 ^ 32)
    : pgroundup sz = (sz + PGSIZE - 1) / PGSIZE * PGSIZE := by
  unfold pgroundup
  rw [uint_eq_self]
  unfold PGSIZE at *
  omega

theorem pdx_mul (v : Nat) : pdx (v * PGSIZE) = v / NPTENTRIES := by
  unfold pdx PGSIZE NPTENTRIES
  omega

theorem mul_pgsize_div (v : Nat) : v * PGSIZE / PGSIZE = v := by
  unfold PGSIZE
  omega

theorem succ_lt_NPAGES {v : Nat} (h : v < UPAGES) : v + 1 < NPAGES := by
  unfold UPAGES KERNBASE PGSIZE at h
  unfold NPAGES NPDENTRIES NPTENTRIES
  omega

-- The pages that `kfree` takes.
def Valid (L : Layout) (p : Ppn) : Prop :=
  L.kend ≤ p * PGSIZE ∧ p * PGSIZE < PHYSTOP

theorem Valid.ne_zero {L : Layout} {p : Ppn} (h : Valid L p) : p ≠ 0 := by
  have := L.extmem_lt
  have := L.data_le
  unfold Valid at h
  unfold EXTMEM at *
  rintro rfl
  omega

namespace Mem

variable {L : Layout} {m m' : Mem} {p : Ppn}

theorem kfree_of_valid (h : Valid L p) (m : Mem) : m.kfree L p = .ok ((m.memset p 1).give p) := by
  unfold kfree
  rw [if_neg]
  rw [not_or, Nat.not_lt, Nat.not_le]
  exact h

theorem kfree_eq_ok (h : m.kfree L p = .ok m') : m' = (m.memset p 1).give p := by
  unfold kfree at h
  split at h
  . simp at h
  . simpa using h.symm

theorem memset_xfer (m : Mem) (p : Ppn) (b : UInt8) : m.Xfer {p} (m.memset p b) {p} :=
  .put m p _

theorem write_xfer (m : Mem) (p : Ppn) (off : Nat) (bs : List UInt8)
    : m.Xfer {p} (m.write p off bs) {p} :=
  .put m p _

theorem kfree_xfer (h : m.kfree L p = .ok m') : m.Xfer {p} m' 0 := by
  rw [kfree_eq_ok h]
  exact (memset_xfer m p 1).trans (.give _ p)

theorem kalloc_xfer (h : m.kalloc = some (p, m')) : m.Xfer 0 m' {p} :=
  .take h

theorem kalloc_put_xfer (h : m.kalloc = some (p, m')) (b : Page) : m.Xfer 0 (m'.put p b) {p} :=
  (kalloc_xfer h).trans (.put m' p b)

theorem kalloc_eq_none : m.kalloc = none ↔ m.free = [] :=
  Pool.take_eq_none

@[simp]
theorem memset_free (m : Mem) (p : Ppn) (b : UInt8) : (m.memset p b).free = m.free := rfl

@[simp]
theorem memset_data (m : Mem) (p q : Ppn) (b : UInt8)
    : (m.memset p b).data q = if q = p then fun _ => b else m.data q := rfl

@[simp]
theorem write_free (m : Mem) (p : Ppn) (off : Nat) (bs : List UInt8)
    : (m.write p off bs).free = m.free := rfl

@[simp]
theorem put_free (m : Mem) (p : Ppn) (b : Page) : (m.put p b).free = m.free := rfl

@[simp]
theorem put_data (m : Mem) (p q : Ppn) (b : Page)
    : (m.put p b).data q = if q = p then b else m.data q := rfl

end Mem

namespace PgDir

def frame (d : PgDir) (v : Nat) : Option Ppn :=
  if (d.pte v).present then some (d.pte v).addr else none

def tabs (d : PgDir) : Multiset Ppn :=
  Pool.cells d.tab (Finset.range NPDENTRIES)

-- The pages of user memory. Those above `KERNBASE` belong to the kernel.
def pages (d : PgDir) : Multiset Ppn :=
  Pool.cells d.frame (Finset.range UPAGES)

def frames (d : PgDir) : Multiset Ppn :=
  {d.page} + d.tabs + d.pages

structure Wf (d : PgDir) : Prop where
  tab : ∀ v, d.tab (v / NPTENTRIES) = none → (d.pte v).present = false
  zero : ∀ v, (d.pte v).present = false → d.pte v = .zero
  kern : ∀ v, UPAGES ≤ v → (d.pte v).user = false
  write : ∀ v, (d.pte v).user = true → (d.pte v).write = true

variable {d : PgDir} {v w : Nat}

theorem frame_eq_some {p : Ppn} : d.frame v = some p ↔ (d.pte v).present = true ∧ (d.pte v).addr = p := by
  unfold frame
  split
  . next h => simp [h]
  . next h => simp [h]

theorem frame_eq_none : d.frame v = none ↔ (d.pte v).present = false := by
  unfold frame
  split
  . next h => simp [h]
  . next h => simpa using h

theorem mem_pages {p : Ppn}
    : p ∈ d.pages ↔ ∃ v < UPAGES, (d.pte v).present = true ∧ (d.pte v).addr = p := by
  unfold pages
  rw [Pool.mem_cells]
  simp only [Finset.mem_range, frame_eq_some]

theorem addr_mem_pages (hv : v < UPAGES) (h : (d.pte v).present = true) : (d.pte v).addr ∈ d.pages :=
  mem_pages.mpr ⟨v, hv, h, rfl⟩

theorem pages_le_frames : d.pages ≤ d.frames := by
  unfold frames
  exact Multiset.le_add_left _ _

theorem addr_mem_frames (hv : v < UPAGES) (h : (d.pte v).present = true) : (d.pte v).addr ∈ d.frames :=
  Multiset.mem_of_le pages_le_frames (addr_mem_pages hv h)

theorem addr_inj (hnodup : d.frames.Nodup) (hv : v < UPAGES) (hw : w < UPAGES)
    (hpv : (d.pte v).present = true) (hpw : (d.pte w).present = true) (heq : (d.pte v).addr = (d.pte w).addr)
    : v = w := by
  have hpages := Multiset.nodup_of_le pages_le_frames hnodup
  unfold pages at hpages
  exact Pool.eq_of_cells_nodup hpages (Finset.mem_range.mpr hv) (Finset.mem_range.mpr hw)
    (frame_eq_some.mpr ⟨hpv, rfl⟩) (frame_eq_some.mpr ⟨hpw, heq.symm⟩)

theorem page_mem_frames (d : PgDir) : d.page ∈ d.frames := by
  unfold frames
  rw [Multiset.mem_add, Multiset.mem_add]
  exact .inl (.inl (Multiset.mem_singleton_self d.page))

theorem tab_mem_frames {i : Nat} {p : Ppn} (hi : i < NPDENTRIES) (h : d.tab i = some p) : p ∈ d.frames := by
  have : p ∈ d.tabs := by
    unfold tabs
    exact Pool.mem_cells_of (Finset.mem_range.mpr hi) h
  unfold frames
  rw [Multiset.mem_add, Multiset.mem_add]
  exact .inl (.inr this)

@[simp]
theorem setPte_page (e : Pte) : (d.setPte v e).page = d.page := rfl

@[simp]
theorem setPte_tab (e : Pte) : (d.setPte v e).tab = d.tab := rfl

@[simp]
theorem setPte_pte (e : Pte) : (d.setPte v e).pte w = if w = v then e else d.pte w := by
  simp [setPte, Function.update_apply]

theorem setPte_frame (e : Pte)
    : (d.setPte v e).frame = Function.update d.frame v (if e.present then some e.addr else none) := by
  funext w
  by_cases h : w = v
  . simp [h, frame]
  . simp [h, frame, Function.update_of_ne]

theorem setPte_tabs (e : Pte) : (d.setPte v e).tabs = d.tabs := by
  unfold tabs
  rfl

theorem setPte_pages_add {e : Pte} (hv : v < UPAGES) (h : (d.pte v).present = false)
    (he : e.present = true)
    : (d.setPte v e).pages = d.pages + {e.addr} := by
  unfold pages
  rw [setPte_frame, if_pos he]
  exact Pool.cells_add (Finset.mem_range.mpr hv) (frame_eq_none.mpr h) _

theorem setPte_pages_remove {e : Pte} (hv : v < UPAGES) (h : (d.pte v).present = true)
    (he : e.present = false)
    : (d.setPte v e).pages + {(d.pte v).addr} = d.pages := by
  unfold pages
  rw [setPte_frame, he, if_neg (by simp)]
  exact Pool.cells_remove (Finset.mem_range.mpr hv) (frame_eq_some.mpr ⟨h, rfl⟩)

theorem Wf.isSome_tab (hd : d.Wf) (hpresent : (d.pte v).present = true) : (d.tab (v / NPTENTRIES)).isSome := by
  by_contra hnone
  rw [Option.not_isSome_iff_eq_none] at hnone
  simp [hd.tab v hnone] at hpresent

theorem Wf.setPte (hd : d.Wf) {e : Pte} (htab : (d.tab (v / NPTENTRIES)).isSome)
    (hzero : e.present = false → e = .zero) (hkern : UPAGES ≤ v → e.user = false)
    (hwrite : e.user = true → e.write = true)
    : (d.setPte v e).Wf where
  tab w hw := by
    by_cases h : w = v
    . subst h
      simp only [setPte_tab] at hw
      simp [hw] at htab
    . simpa [h] using hd.tab w hw
  zero w hw := by
    by_cases h : w = v
    . simp only [setPte_pte, h, ↓reduceIte] at hw ⊢
      exact hzero hw
    . simp only [setPte_pte, h, ↓reduceIte] at hw ⊢
      exact hd.zero w hw
  kern w hw := by
    by_cases h : w = v
    . simp only [setPte_pte, h, ↓reduceIte]
      exact hkern (h ▸ hw)
    . simp only [setPte_pte, h, ↓reduceIte]
      exact hd.kern w hw
  write w hw := by
    by_cases h : w = v
    . simp only [setPte_pte, h, ↓reduceIte] at hw ⊢
      exact hwrite hw
    . simp only [setPte_pte, h, ↓reduceIte] at hw ⊢
      exact hd.write w hw

section

variable {i : Nat} {p : Ppn}

theorem addTab_pte (hd : d.Wf) (hi : d.tab i = none) : (d.addTab i p).pte = d.pte := by
  funext v
  unfold addTab
  dsimp only
  split
  . next h =>
    rw [hd.zero v]
    apply hd.tab
    rw [h, hi]
  . rfl

theorem addTab_tab {j : Nat} : (d.addTab i p).tab j = if j = i then some p else d.tab j := by
  simp [addTab, Function.update_apply]

theorem addTab_tabs (hi : i < NPDENTRIES) (h : d.tab i = none) : (d.addTab i p).tabs = d.tabs + {p} := by
  unfold tabs
  exact Pool.cells_add (Finset.mem_range.mpr hi) h p

theorem Wf.addTab (hd : d.Wf) (hi : d.tab i = none) : (d.addTab i p).Wf where
  tab v hv := by
    rw [addTab_pte hd hi]
    rw [addTab_tab] at hv
    split at hv
    . simp at hv
    . exact hd.tab v hv
  zero v hv := by
    rw [addTab_pte hd hi] at hv ⊢
    exact hd.zero v hv
  kern v hv := by
    rw [addTab_pte hd hi]
    exact hd.kern v hv
  write v hv := by
    rw [addTab_pte hd hi] at hv ⊢
    exact hd.write v hv

end

end PgDir

end Xv6.Vm
