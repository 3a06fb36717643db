import Mathlib.Order.CompletePartialOrder
import Xv6.Vm.Lemmas.Dealloc

/-!
`allocuvm`. As long as there is memory it fills the pages it is asked for with zeros, and whatever happens it
neither loses a page nor takes one that is in use.
-/

namespace Xv6.Vm

-- Pages come in, all of them for the virtual pages in `V`: the pages themselves and page tables for them.
structure Grows (d : PgDir) (m : Mem) (d' : PgDir) (m' : Mem) (V : Set Nat) (Δ : Multiset Ppn) : Prop where
  page : d'.page = d.page
  wf : d'.Wf
  pte : ∀ v, v ∉ V → d'.pte v = d.pte v
  tab : ∀ i p, d.tab i = some p → d'.tab i = some p
  newtab : ∀ i, (d'.tab i).isSome → (d.tab i).isSome ∨ ∃ v ∈ V, v / NPTENTRIES = i
  xfer : m.Xfer 0 m' Δ
  frames : d'.frames = d.frames + Δ

namespace Grows

variable {d d' d'' : PgDir} {m m' m'' : Mem} {V V' : Set Nat} {Δ Δ' : Multiset Ppn}

theorem refl (hd : d.Wf) (m : Mem) (V : Set Nat) : Grows d m d m V 0 where
  page := rfl
  wf := hd
  pte _ _ := rfl
  tab _ _ h := h
  newtab _ h := .inl h
  xfer := .refl m 0
  frames := by simp

theorem trans (h : Grows d m d' m' V Δ) (h' : Grows d' m' d'' m'' V' Δ')
    : Grows d m d'' m'' (V ∪ V') (Δ + Δ') where
  page := h'.page.trans h.page
  wf := h'.wf
  pte v hv := by
    rw [Set.mem_union, not_or] at hv
    rw [h'.pte v hv.2, h.pte v hv.1]
  tab i p hp := h'.tab i p (h.tab i p hp)
  newtab i hi := by
    rcases h'.newtab i hi with hi | ⟨v, hv, hvi⟩
    . rcases h.newtab i hi with hi | ⟨v, hv, hvi⟩
      . exact .inl hi
      . exact .inr ⟨v, .inl hv, hvi⟩
    . exact .inr ⟨v, .inr hv, hvi⟩
  xfer := by
    have := h'.xfer.frame Δ
    rw [zero_add, add_comm Δ' Δ] at this
    exact h.xfer.trans this
  frames := by rw [h'.frames, h.frames, add_assoc]

theorem congr (h : Grows d m d' m' V Δ) (hV : V = V') : Grows d m d' m' V' Δ :=
  hV ▸ h

theorem data_eq (h : Grows d m d' m' V Δ) {p : Ppn} (hp : p ∉ m.free) : m'.data p = m.data p := by
  apply h.xfer.data
  simpa using hp

theorem free_subset (h : Grows d m d' m' V Δ) {p : Ppn} (hp : p ∈ m'.free) : p ∈ m.free := by
  have : p ∈ Δ + (m'.free : Multiset Ppn) := by
    rw [Multiset.mem_add]
    exact .inr hp
  rw [h.xfer.total] at this
  simpa using this

theorem nodup (h : Grows d m d' m' V Δ) (hm : m.free.Nodup) : m'.free.Nodup := by
  have hsum : (Δ + (m'.free : Multiset Ppn)).Nodup := by
    rw [h.xfer.total, zero_add]
    exact hm
  exact (Multiset.nodup_add.mp hsum).2.1

end Grows

-- No page is lost and none that belongs to others is touched.
structure Trades (d : PgDir) (m : Mem) (d' : PgDir) (m' : Mem) : Prop where
  wf : d'.Wf
  xfer : m.Xfer d.frames m' d'.frames

namespace Trades

variable {d d' d'' : PgDir} {m m' m'' : Mem} {V : Set Nat} {Δ : Multiset Ppn}

theorem refl (hd : d.Wf) (m : Mem) : Trades d m d m :=
  ⟨hd, .refl m _⟩

theorem trans (h : Trades d m d' m') (h' : Trades d' m' d'' m'') : Trades d m d'' m'' :=
  ⟨h'.wf, h.xfer.trans h'.xfer⟩

theorem of_grows (h : Grows d m d' m' V Δ) : Trades d m d' m' where
  wf := h.wf
  xfer := by
    have := h.xfer.frame d.frames
    rw [zero_add, add_comm Δ, ← h.frames] at this
    exact this

theorem of_shrinks (h : Shrinks d m d' m' Δ) : Trades d m d' m' where
  wf := h.wf
  xfer := by
    have := h.xfer.frame d'.frames
    rw [zero_add, add_comm Δ, h.frames] at this
    exact this

end Trades

section

variable {L : Layout} {d d' : PgDir} {m m' m1 : Mem} {v : Nat} {p : Ppn}

theorem kalloc_eq_some (h : m.kalloc = some (p, m1)) : m.free = p :: m1.free ∧ m1.data = m.data :=
  Pool.take_eq_some h

theorem mapNew_cases (write user : Bool) (b : Page) (hd : d.Wf) (hv : v < UPAGES)
    (hwrite : user = true → write = true) (hp : m.kalloc = some (p, m1))
    : (d.tab (v / NPTENTRIES) = none ∧ m1.free = [] ∧
        mappages d (v * PGSIZE) PGSIZE p write user (m1.put p b) = .ok (false, d, m1.put p b)) ∨
      ((d.pte v).present = true ∧
        mappages d (v * PGSIZE) PGSIZE p write user (m1.put p b) = .error (.panic "remap")) ∨
      ((d.pte v).present = false ∧ (m1.free ≠ [] ∨ (d.tab (v / NPTENTRIES)).isSome) ∧
        ∃ d' m' Δ, mappages d (v * PGSIZE) PGSIZE p write user (m1.put p b) = .ok (true, d', m') ∧
        Grows d m d' m' {v} Δ ∧ d'.pte v = { addr := p, present := true, write := write, user := user } ∧
        (m.free.Nodup → p ∉ m'.free ∧ m'.data p = b)) := by
  have hvN : v < NPAGES := Nat.lt_of_lt_of_le hv (by decide)
  rw [mappages_page d _ hvN]
  rcases mapPage_cases write user p hd (m1.put p b) hvN (fun h => absurd hv (Nat.not_lt.mpr h)) hwrite with
    ⟨htab, hfree, heq⟩ | ⟨hpresent, heq⟩ | ⟨habsent, hroom, d', m', Δ, heq, hmaps, hpte⟩
  . exact .inl ⟨htab, hfree, heq⟩
  . exact .inr (.inl ⟨hpresent, heq⟩)
  . right
    right
    refine ⟨habsent, hroom, d', m', Δ + {p}, heq, ?_, hpte, ?_⟩
    . constructor
      . exact hmaps.page
      . exact hmaps.wf
      . exact hmaps.pte
      . exact hmaps.tab
      . exact hmaps.newtab
      . have := hmaps.xfer.frame {p}
        rw [zero_add] at this
        exact (Mem.kalloc_put_xfer hp b).trans this
      . have hpages := PgDir.pages_add hv (fun w hw => hmaps.pte w hw) habsent (by rw [hpte])
        rw [hpte] at hpages
        unfold PgDir.frames
        rw [hmaps.page, hmaps.tabs, hpages]
        simp only [add_assoc, add_comm, add_left_comm]
    . intro hnodup
      rw [(kalloc_eq_some hp).1, List.nodup_cons] at hnodup
      constructor
      . intro hfree
        have : p ∈ Δ + (m'.free : Multiset Ppn) := Multiset.mem_add.mpr (.inr hfree)
        rw [hmaps.xfer.total] at this
        simp [hnodup.1] at this
      . rw [hmaps.xfer.data p]
        . simp
        . simpa using hnodup.1

theorem Trades.of_failed (hd : d.Wf) {m2 m3 : Mem} {r : Nat} {b : Page} {oldsz newsz : Nat}
    (hp : m.kalloc = some (p, m1)) (hdealloc : deallocuvm L d newsz oldsz (m1.put p b) = .ok (r, d', m2))
    (hfree : m2.kfree L p = .ok m3)
    : Trades d m d' m3 := by
  obtain ⟨Δ, hshrinks⟩ := deallocuvm_shrinks hd hdealloc
  have htrades := Trades.of_shrinks hshrinks
  have h1 := (Mem.kalloc_put_xfer hp b).frame d.frames
  have h2 := htrades.xfer.frame {p}
  have h3 := (Mem.kfree_xfer hfree).frame d'.frames
  rw [zero_add, add_comm _ d.frames] at h1
  rw [zero_add, add_comm _ d'.frames] at h3
  exact ⟨htrades.wf, (h1.trans h2).trans h3⟩

theorem PgDir.present_clear {lo hi w : Nat}
    : ((d.clear lo hi).pte w).present = true ↔ (d.pte w).present = true ∧ ¬ (lo ≤ w ∧ w < hi) := by
  rw [PgDir.clear_pte]
  split
  . next hw => simp [Pte.zero, hw]
  . next hw => simp [hw]

-- With the result `r` of `allocuvm`, all pages from `v` on are there, or none that was not there before.
def Allocated (oldsz newsz v : Nat) (d d' : PgDir) (r : Nat) : Prop :=
  (r = newsz ∧ ∀ w, (d'.pte w).present = true ↔ (d.pte w).present = true ∨ v ≤ w ∧ w < npages newsz) ∨
    (r = 0 ∧ ∀ w, (d'.pte w).present = true →
      (d.pte w).present = true ∧ ¬ (npages oldsz ≤ w ∧ w < npages newsz))

theorem Allocated.done {oldsz newsz : Nat} (h : ¬ v * PGSIZE < newsz) : Allocated oldsz newsz v d d newsz := by
  refine .inl ⟨rfl, fun w => ?_⟩
  rw [← lt_npages] at h
  have : ¬ (v ≤ w ∧ w < npages newsz) := by omega
  simp [this]

theorem allocLoop_trades {oldsz newsz fuel r : Nat} (hd : d.Wf) (hsz : newsz < KERNBASE)
    (hv : npages oldsz ≤ v) (h : allocLoop L oldsz newsz fuel d (v * PGSIZE) m = .ok (r, d', m'))
    : Trades d m d' m' ∧ Allocated oldsz newsz v d d' r := by
  induction fuel generalizing d m v with
  | zero =>
    unfold allocLoop at h
    split at h
    . simp at h
    . next hlt =>
      simp only [Except.ok.injEq, Prod.mk.injEq] at h
      obtain ⟨rfl, rfl, rfl⟩ := h
      exact ⟨.refl hd m, .done hlt⟩
  | succ fuel ih =>
    unfold allocLoop at h
    split at h
    . next hlt =>
      rw [← lt_npages] at hlt
      have hu : v < UPAGES := Nat.lt_of_lt_of_le hlt (npages_le_upages (Nat.le_of_lt hsz))
      have hclear : ∀ {m1 m2 : Mem} {r1 : Nat} {d1 : PgDir}, deallocuvm L d newsz oldsz m1 = .ok (r1, d1, m2) →
          ∀ w, (d1.pte w).present = true →
            (d.pte w).present = true ∧ ¬ (npages oldsz ≤ w ∧ w < npages newsz) := by
        intro m1 m2 r1 d1 hdealloc w hw
        rw [deallocuvm_clear hd (Nat.le_trans (Nat.le_of_lt hsz) (by decide)) hdealloc] at hw
        exact PgDir.present_clear.mp hw
      split at h
      . split at h
        . simp at h
        . next hdealloc =>
          simp only [Except.ok.injEq, Prod.mk.injEq] at h
          obtain ⟨rfl, rfl, rfl⟩ := h
          obtain ⟨Δ, hshrinks⟩ := deallocuvm_shrinks hd hdealloc
          exact ⟨.of_shrinks hshrinks, .inr ⟨rfl, hclear hdealloc⟩⟩
      . next p m1 hp =>
        unfold Mem.memset at h
        rcases mapNew_cases true true (fun _ => 0) hd hu (by simp) hp with
          ⟨-, -, heq⟩ | ⟨-, heq⟩ | ⟨-, -, d2, m2, Δ, heq, hgrows, hpte, -⟩
        . rw [heq] at h
          dsimp only at h
          split at h
          . simp at h
          . next hdealloc =>
            split at h
            . simp at h
            . next hfree =>
              simp only [Except.ok.injEq, Prod.mk.injEq] at h
              obtain ⟨rfl, rfl, rfl⟩ := h
              exact ⟨.of_failed hd hp hdealloc hfree, .inr ⟨rfl, hclear hdealloc⟩⟩
        . rw [heq] at h
          simp at h
        . rw [heq] at h
          dsimp only at h
          rw [uint_next (n := 0) (succ_lt_NPAGES hu)] at h
          have hstep : ∀ w, (d2.pte w).present = true ↔ (d.pte w).present = true ∨ w = v := by
            intro w
            by_cases hwv : w = v
            . simp [hwv, hpte]
            . simp [hwv, hgrows.pte w hwv]
          obtain ⟨htrades, hr⟩ := ih hgrows.wf (Nat.le_succ_of_le hv) h
          refine ⟨(Trades.of_grows hgrows).trans htrades, ?_⟩
          rcases hr with ⟨rfl, hpresent⟩ | ⟨rfl, hpresent⟩
          . refine .inl ⟨rfl, fun w => ?_⟩
            rw [hpresent, hstep, or_assoc]
            apply or_congr_right
            omega
          . refine .inr ⟨rfl, fun w hw => ?_⟩
            obtain ⟨hw, hrange⟩ := hpresent w hw
            refine ⟨?_, hrange⟩
            rcases (hstep w).mp hw with hw | hw
            . exact hw
            . omega
    . next hlt =>
      simp only [Except.ok.injEq, Prod.mk.injEq] at h
      obtain ⟨rfl, rfl, rfl⟩ := h
      exact ⟨.refl hd m, .done hlt⟩

theorem allocuvm_trades {oldsz newsz r : Nat} (hd : d.Wf)
    (h : allocuvm L d oldsz newsz m = .ok (r, d', m'))
    : Trades d m d' m' ∧ ((r = 0 ∧ ∀ w, (d'.pte w).present = true → (d.pte w).present = true) ∨
        (r = oldsz ∧ newsz < oldsz ∧ d' = d) ∨
        (r = newsz ∧ oldsz ≤ newsz ∧ newsz < KERNBASE ∧
          ∀ w, (d'.pte w).present = true ↔
            (d.pte w).present = true ∨ npages oldsz ≤ w ∧ w < npages newsz)) := by
  unfold allocuvm at h
  split at h
  . simp only [Except.ok.injEq, Prod.mk.injEq] at h
    obtain ⟨rfl, rfl, rfl⟩ := h
    exact ⟨.refl hd m, .inl ⟨rfl, fun _ hw => hw⟩⟩
  . next hsz =>
    split at h
    . next hlt =>
      simp only [Except.ok.injEq, Prod.mk.injEq] at h
      obtain ⟨rfl, rfl, rfl⟩ := h
      exact ⟨.refl hd m, .inr (.inl ⟨rfl, hlt, rfl⟩)⟩
    . rw [pgroundup_eq_npages (by omega)] at h
      obtain ⟨htrades, hr⟩ := allocLoop_trades hd (by omega) (Nat.le_refl _) h
      refine ⟨htrades, ?_⟩
      rcases hr with ⟨hr, hpresent⟩ | ⟨hr, hpresent⟩
      . exact .inr (.inr ⟨hr, by omega, by omega, hpresent⟩)
      . exact .inl ⟨hr, fun w hw => (hpresent w hw).1⟩

-- The pages in `V` are mapped with the flags `write` and `user` and have the contents `b`.
def Filled (write user : Nat → Bool) (b : Nat → Page) (d : PgDir) (m : Mem) (V : Set Nat) : Prop :=
  ∀ v ∈ V, ∃ p, d.pte v = { addr := p, present := true, write := write v, user := user v } ∧
    p ∉ m.free ∧ m.data p = b v

theorem Filled.grows {write user : Nat → Bool} {b : Nat → Page} {V V' : Set Nat} {Δ : Multiset Ppn}
    (h : Filled write user b d m V) (hgrows : Grows d m d' m' V' Δ) (hdisj : Disjoint V V')
    : Filled write user b d' m' V := by
  intro v hv
  obtain ⟨p, hpte, hfree, hdata⟩ := h v hv
  refine ⟨p, ?_, fun hp => hfree (hgrows.free_subset hp), ?_⟩
  . rw [hgrows.pte v (Set.disjoint_left.mp hdisj hv), hpte]
  . rw [hgrows.data_eq hfree, hdata]

theorem Filled.union {write user : Nat → Bool} {b : Nat → Page} {V V' : Set Nat}
    (h : Filled write user b d m V) (h' : Filled write user b d m V')
    : Filled write user b d m (V ∪ V') := by
  intro v hv
  rcases hv with hv | hv
  . exact h v hv
  . exact h' v hv

-- New pages are full of zeros and open to the user.
def Fresh : PgDir → Mem → Set Nat → Prop :=
  Filled (fun _ => true) (fun _ => true) (fun _ _ => 0)

theorem singleton_union_Ico {v w : Nat} (h : v < w) : {v} ∪ Set.Ico (v + 1) w = Set.Ico v w := by
  ext u
  simp only [Set.mem_union, Set.mem_singleton_iff, Set.mem_Ico]
  omega

theorem disjoint_singleton_Ico (v w : Nat) : Disjoint {v} (Set.Ico (v + 1) w) := by
  rw [Set.disjoint_singleton_left, Set.mem_Ico]
  omega

-- The pages from `v` to `w`, none of which was there, have been allocated.
structure Fills (d : PgDir) (m : Mem) (v w : Nat) (d' : PgDir) (m' : Mem) (Δ : Multiset Ppn) : Prop where
  le : v ≤ w
  absent : ∀ u ∈ Set.Ico v w, (d.pte u).present = false
  grows : Grows d m d' m' (Set.Ico v w) Δ
  fresh : Fresh d' m' (Set.Ico v w)

theorem Fills.refl (hd : d.Wf) (m : Mem) (v : Nat) : Fills d m v v d m 0 where
  le := Nat.le_refl v
  absent u hu := by simp at hu
  grows := .refl hd m _
  fresh u hu := by simp at hu

theorem Fills.cons {w : Nat} {d2 : PgDir} {m2 : Mem} {Δ Δ' : Multiset Ppn} (habsent : (d.pte v).present = false)
    (hgrows : Grows d m d2 m2 {v} Δ) (hfresh : Fresh d2 m2 {v}) (h : Fills d2 m2 (v + 1) w d' m' Δ')
    : Fills d m v w d' m' (Δ + Δ') where
  le := Nat.le_of_succ_le h.le
  absent u hu := by
    by_cases huv : u = v
    . rw [huv, habsent]
    . rw [Set.mem_Ico] at hu
      rw [← hgrows.pte u huv]
      apply h.absent
      rw [Set.mem_Ico]
      omega
  grows := (hgrows.trans h.grows).congr (singleton_union_Ico h.le)
  fresh := by
    rw [← singleton_union_Ico h.le]
    exact (hfresh.grows h.grows (disjoint_singleton_Ico v _)).union h.fresh

/--
The loop of `allocuvm` allocates all pages, or it stops at the page `w`: because the memory is used up, and then
it takes the pages back and with them all others of the range, or because the page is there already.
-/
inductive AllocCase (oldsz newsz v : Nat) (d : PgDir) (m : Mem) : Res (Nat × PgDir × Mem) → Prop where
  | done (d' : PgDir) (m' : Mem) (Δ : Multiset Ppn) (h : Fills d m v (npages newsz) d' m' Δ)
      : AllocCase oldsz newsz v d m (.ok (newsz, d', m'))
  | failed (w : Nat) (d1 : PgDir) (m1 m2 : Mem) (Δ Δ' : Multiset Ppn) (h : Fills d m v w d1 m1 Δ)
      (hw : w < npages newsz)
      (hfree : m1.free = [] ∨ (m1.free.length = 1 ∧ d1.tab (w / NPTENTRIES) = none))
      (hshrinks : Shrinks d1 m1 (d1.clear (npages oldsz) (npages newsz)) m2 Δ')
      : AllocCase oldsz newsz v d m (.ok (0, d1.clear (npages oldsz) (npages newsz), m2))
  | remap (w : Nat) (d1 : PgDir) (m1 : Mem) (Δ : Multiset Ppn) (h : Fills d m v w d1 m1 Δ)
      (hw : w < npages newsz) (hpresent : (d.pte w).present = true) (hfree : m1.free ≠ [])
      : AllocCase oldsz newsz v d m (.error (.panic "remap"))

theorem AllocCase.cons {oldsz newsz : Nat} {d2 : PgDir} {m2 : Mem} {Δ : Multiset Ppn} {r : Res (Nat × PgDir × Mem)}
    (habsent : (d.pte v).present = false) (hgrows : Grows d m d2 m2 {v} Δ) (hfresh : Fresh d2 m2 {v})
    (h : AllocCase oldsz newsz (v + 1) d2 m2 r)
    : AllocCase oldsz newsz v d m r := by
  cases h with
  | done d' m' Δ' h => exact .done d' m' _ (h.cons habsent hgrows hfresh)
  | failed w d1 m1 m3 Δ1 Δ2 h hw hfree hshrinks =>
    exact .failed w d1 m1 m3 _ Δ2 (h.cons habsent hgrows hfresh) hw hfree hshrinks
  | remap w d1 m1 Δ' h hw hpresent hfree =>
    refine .remap w d1 m1 _ (h.cons habsent hgrows hfresh) hw ?_ hfree
    have := h.le
    rwa [← hgrows.pte w (by rw [Set.mem_singleton_iff]; omega)]

theorem allocLoop_cases {oldsz newsz fuel : Nat} (hd : d.Wf) (hs : m.Sound (Valid L) d.frames)
    (hsz : newsz < KERNBASE) (hle : oldsz ≤ newsz) (hfuel : npages newsz ≤ v + fuel) (hv : v ≤ npages newsz)
    : AllocCase oldsz newsz v d m (allocLoop L oldsz newsz fuel d (v * PGSIZE) m) := by
  induction fuel generalizing d m v with
  | zero =>
    have hend : v = npages newsz := by omega
    have hlt : ¬ v * PGSIZE < newsz := by
      rw [← lt_npages]
      omega
    unfold allocLoop
    rw [if_neg hlt]
    exact .done d m 0 (hend ▸ .refl hd m v)
  | succ fuel ih =>
    have hvalid : ∀ w < UPAGES, (d.pte w).present = true → Valid L (d.pte w).addr :=
      fun w hw hpresent => hs.valid _ (Multiset.mem_add.mpr (.inl (PgDir.addr_mem_frames hw hpresent)))
    unfold allocLoop
    split
    . next hlt =>
      rw [← lt_npages] at hlt
      have hu : v < UPAGES := Nat.lt_of_lt_of_le hlt (npages_le_upages (Nat.le_of_lt hsz))
      -- what the two failing branches do
      have hdealloc : ∀ m1 : Mem, ∃ m2 r Δ, deallocuvm L d newsz oldsz m1
          = .ok (r, d.clear (npages oldsz) (npages newsz), m2) ∧
          Shrinks d m1 (d.clear (npages oldsz) (npages newsz)) m2 Δ := by
        intro m1
        rcases Nat.lt_or_ge oldsz newsz with hlt' | hge
        . obtain ⟨m2, Δ, heq, hshrinks⟩ := deallocuvm_eq_ok (m := m1) hd (Nat.le_of_lt hsz) hlt' hvalid
          exact ⟨m2, oldsz, Δ, heq, hshrinks⟩
        . rw [Nat.le_antisymm hle hge, d.clear_of_le (Nat.le_refl _)]
          refine ⟨m1, newsz, 0, ?_, .refl hd m1⟩
          unfold deallocuvm
          rw [if_pos (Nat.le_refl newsz)]
      split
      . next hnone =>
        obtain ⟨m2, r, Δ, heq, hshrinks⟩ := hdealloc m
        rw [heq]
        exact .failed v d m m2 0 Δ (.refl hd m v) hlt (.inl (Mem.kalloc_eq_none.mp hnone)) hshrinks
      . next p m1 hp =>
        rcases mapNew_cases true true (fun _ => 0) hd hu (by simp) hp with
          ⟨htab, hfree, heq⟩ | ⟨hpresent, heq⟩ | ⟨habsent, -, d2, m2, Δ, heq, hgrows, hpte, hdata⟩
        . have hpvalid : Valid L p := by
            apply hs.valid
            rw [Multiset.mem_add, (kalloc_eq_some hp).1]
            simp
          obtain ⟨m2, r, Δ, hdeq, hshrinks⟩ := hdealloc (m1.put p fun _ => 0)
          unfold Mem.memset
          rw [heq]
          dsimp only
          rw [hdeq]
          dsimp only
          rw [Mem.kfree_of_valid hpvalid]
          have hone : m.free.length = 1 := by rw [(kalloc_eq_some hp).1, hfree, List.length_singleton]
          refine .failed v d m _ 0 Δ (.refl hd m v) hlt (.inr ⟨hone, htab⟩) { hshrinks with xfer := ?_ }
          have h1 := (Mem.kalloc_put_xfer hp fun _ => 0).frame Δ
          have h2 := hshrinks.xfer.frame {p}
          rw [zero_add, add_comm] at h1
          rw [zero_add] at h2
          exact (h1.trans h2).trans (Mem.kfree_xfer (Mem.kfree_of_valid hpvalid m2))
        . unfold Mem.memset
          rw [heq]
          exact .remap v d m 0 (.refl hd m v) hlt hpresent (by simp [(kalloc_eq_some hp).1])
        . unfold Mem.memset
          rw [heq]
          dsimp only
          rw [uint_next (n := 0) (succ_lt_NPAGES hu)]
          have hfresh : Fresh d2 m2 {v} := by
            intro w hw
            rw [Set.mem_singleton_iff] at hw
            exact ⟨p, hw ▸ hpte, hdata (Multiset.nodup_add.mp hs.nodup).2.1⟩
          apply AllocCase.cons habsent hgrows hfresh
          exact ih hgrows.wf ((Trades.of_grows hgrows).xfer.sound hs) (by omega) (by omega)
    . next hlt =>
      rw [← lt_npages] at hlt
      have hend : v = npages newsz := by omega
      exact .done d m 0 (hend ▸ .refl hd m v)

theorem allocuvm_cases {oldsz newsz : Nat} (hd : d.Wf) (hs : m.Sound (Valid L) d.frames) (hle : oldsz ≤ newsz)
    (hsz : newsz < KERNBASE)
    : AllocCase oldsz newsz (npages oldsz) d m (allocuvm L d oldsz newsz m) := by
  have hfuel : npages newsz ≤ npages oldsz + NPAGES := by
    have := npages_le_upages (Nat.le_of_lt hsz)
    have : UPAGES ≤ NPAGES := by decide
    omega
  unfold allocuvm
  rw [if_neg (by omega), if_neg (by omega), pgroundup_eq_npages (by omega)]
  exact allocLoop_cases hd hs hsz hle hfuel (npages_mono hle)

end

end Xv6.Vm
