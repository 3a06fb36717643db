import Xv6.Vm.Lemmas.Basic

/-!
`walkpgdir` and `mappages`. They never touch an entry outside the pages they are asked for, and all they take
from the free list are page tables.
-/

namespace Xv6.Vm

namespace PgDir

theorem pages_congr {d d' : PgDir} (h : ∀ v < UPAGES, d'.pte v = d.pte v) : d'.pages = d.pages := by
  unfold pages
  apply Pool.cells_congr
  intro v hv
  unfold frame
  rw [h v (Finset.mem_range.mp hv)]

theorem pages_add {d d' : PgDir} {v : Nat} (hv : v < UPAGES) (h : ∀ w, w ≠ v → d'.pte w = d.pte w)
    (hold : (d.pte v).present = false) (hnew : (d'.pte v).present = true)
    : d'.pages = d.pages + {(d'.pte v).addr} := by
  rw [← setPte_pages_add hv hold hnew]
  apply pages_congr
  intro w _
  rw [setPte_pte]
  split
  . next hw => rw [hw]
  . next hw => exact h w hw

end PgDir

-- Page tables come in, for the pages in `V`, whose entries may change as well.
structure Maps (d : PgDir) (m : Mem) (d' : PgDir) (m' : Mem) (V : Set Nat) (Δ : Multiset Ppn) : Prop where
  page : d'.page = d.page
  wf : d'.Wf
  pte : ∀ v, v ∉ V → d'.pte v = d.pte v
  tab : ∀ i p, d.tab i = some p → d'.tab i = some p
  newtab : ∀ i, (d'.tab i).isSome → (d.tab i).isSome ∨ ∃ v ∈ V, v / NPTENTRIES = i
  xfer : m.Xfer 0 m' Δ
  tabs : d'.tabs = d.tabs + Δ

namespace Maps

variable {d d' d'' : PgDir} {m m' m'' : Mem} {V V' : Set Nat} {Δ Δ' : Multiset Ppn}

theorem refl (hd : d.Wf) (m : Mem) (V : Set Nat) : Maps d m d m V 0 where
  page := rfl
  wf := hd
  pte _ _ := rfl
  tab _ _ h := h
  newtab _ h := .inl h
  xfer := .refl m 0
  tabs := by simp

theorem trans (h : Maps d m d' m' V Δ) (h' : Maps d' m' d'' m'' V' Δ')
    : Maps d m d'' m'' (V ∪ V') (Δ + Δ') where
  page := h'.page.trans h.page
  wf := h'.wf
  pte v hv := by
    rw [Set.mem_union, not_or] at hv
    rw [h'.pte v hv.2, h.pte v hv.1]
  tab i p hp := h'.tab i p (h.tab i p hp)
  newtab i hi := by
    rcases h'.newtab i hi with hi | ⟨v, hv, hvi⟩
    . rcases h.newtab i hi with hi | ⟨v, hv, hvi⟩
      . exact .inl hi
      . exact .inr ⟨v, .inl hv, hvi⟩
    . exact .inr ⟨v, .inr hv, hvi⟩
  xfer := by
    have := h'.xfer.frame Δ
    rw [zero_add, add_comm Δ' Δ] at this
    exact h.xfer.trans this
  tabs := by rw [h'.tabs, h.tabs, add_assoc]

theorem mono (h : Maps d m d' m' V Δ) (hV : V ⊆ V') : Maps d m d' m' V' Δ where
  page := h.page
  wf := h.wf
  pte v hv := h.pte v fun hmem => hv (hV hmem)
  tab := h.tab
  newtab i hi := by
    rcases h.newtab i hi with hi | ⟨v, hv, hvi⟩
    . exact .inl hi
    . exact .inr ⟨v, hV hv, hvi⟩
  xfer := h.xfer
  tabs := h.tabs

theorem isSome_tab (h : Maps d m d' m' V Δ) {i : Nat} (hi : (d.tab i).isSome) : (d'.tab i).isSome := by
  obtain ⟨p, hp⟩ := Option.isSome_iff_exists.mp hi
  rw [h.tab i p hp]
  rfl

end Maps

section

variable {d d' : PgDir} {m m' : Mem} {v : Nat}

theorem walkpgdir_true_cases (hd : d.Wf) (m : Mem) (hv : v < NPAGES)
    : (d.tab (v / NPTENTRIES) = none ∧ m.free = [] ∧ walkpgdir d (v * PGSIZE) true m = none) ∨
      ∃ d' m' Δ, walkpgdir d (v * PGSIZE) true m = some (d', m') ∧ Maps d m d' m' {v} Δ ∧
        d'.pte = d.pte ∧ (d'.tab (v / NPTENTRIES)).isSome ∧
        (m.free ≠ [] ∨ (d.tab (v / NPTENTRIES)).isSome) := by
  unfold walkpgdir
  rw [pdx_mul]
  split
  . next p hp => exact .inr ⟨d, m, 0, rfl, .refl hd m _, rfl, by simp [hp], by simp [hp]⟩
  . next hnone =>
    simp only [not_true_eq_false, ↓reduceIte]
    split
    . next hfree => exact .inl ⟨hnone, Mem.kalloc_eq_none.mp hfree, rfl⟩
    . next p m1 hp =>
      have hi : v / NPTENTRIES < NPDENTRIES := by
        unfold NPAGES NPDENTRIES NPTENTRIES at *
        omega
      have hfree : m.free ≠ [] := by
        rw [(Pool.take_eq_some hp).1]
        simp
      refine .inr ⟨_, _, {p}, rfl, ?_, PgDir.addTab_pte hd hnone, by simp [PgDir.addTab_tab], .inl hfree⟩
      constructor
      . rfl
      . exact hd.addTab hnone
      . intro w _
        rw [PgDir.addTab_pte hd hnone]
      . intro i q hq
        rw [PgDir.addTab_tab, if_neg, hq]
        rintro rfl
        simp [hnone] at hq
      . intro j hj
        rw [PgDir.addTab_tab] at hj
        split at hj
        . next h => exact .inr ⟨v, rfl, h.symm⟩
        . exact .inl hj
      . exact Mem.kalloc_put_xfer hp _
      . exact PgDir.addTab_tabs hi hnone

theorem walkpgdir_false_eq (d : PgDir) (m : Mem) (v : Nat)
    : walkpgdir d (v * PGSIZE) false m
        =
      if (d.tab (v / NPTENTRIES)).isSome then some (d, m) else none := by
  unfold walkpgdir
  rw [pdx_mul]
  split
  . next p hp => simp [hp]
  . next hp => simp [hp]

variable {write user : Bool} {pa : Ppn}

theorem mapPage_cases (write user : Bool) (pa : Ppn) (hd : d.Wf) (m : Mem) (hv : v < NPAGES)
    (hkern : UPAGES ≤ v → user = false) (hwrite : user = true → write = true)
    : (d.tab (v / NPTENTRIES) = none ∧ m.free = [] ∧
        mapPage write user d (v * PGSIZE) pa m = .ok (false, d, m)) ∨
      ((d.pte v).present = true ∧
        mapPage write user d (v * PGSIZE) pa m = .error (.panic "remap")) ∨
      ((d.pte v).present = false ∧ (m.free ≠ [] ∨ (d.tab (v / NPTENTRIES)).isSome) ∧
        ∃ d' m' Δ, mapPage write user d (v * PGSIZE) pa m = .ok (true, d', m') ∧
        Maps d m d' m' {v} Δ ∧ d'.pte v = { addr := pa, present := true, write := write, user := user }) := by
  unfold mapPage
  rw [mul_pgsize_div]
  rcases walkpgdir_true_cases hd m hv with ⟨htab, hfree, hwalk⟩ | ⟨d1, m1, Δ, hwalk, hmaps, hpte, htab, hroom⟩
  . rw [hwalk]
    exact .inl ⟨htab, hfree, rfl⟩
  . right
    rw [hwalk]
    dsimp only
    rw [hpte]
    split
    . next hpresent => exact .inl ⟨hpresent, rfl⟩
    . next hpresent =>
      simp only [Bool.not_eq_true] at hpresent
      refine .inr ⟨hpresent, hroom, _, m1, Δ, rfl, ?_, by simp⟩
      constructor
      . exact hmaps.page
      . exact hmaps.wf.setPte htab (by simp) hkern hwrite
      . intro w hw
        rw [Set.mem_singleton_iff] at hw
        rw [PgDir.setPte_pte, if_neg hw, hpte]
      . exact hmaps.tab
      . exact hmaps.newtab
      . exact hmaps.xfer
      . rw [PgDir.setPte_tabs, hmaps.tabs]

theorem mappages_eq (d : PgDir) (m : Mem) {n size : Nat} (hn : v + n < NPAGES)
    (hsize : size = (n + 1) * PGSIZE)
    : mappages d (v * PGSIZE) size pa write user m
        =
      mappagesLoop write user ((v + n) * PGSIZE) NPAGES d (v * PGSIZE) pa m := by
  unfold mappages
  dsimp only
  have hlast : pgrounddown (uint (v * PGSIZE + size + 2 ^ 32 - 1)) = (v + n) * PGSIZE := by
    unfold pgrounddown uint
    unfold NPAGES NPDENTRIES NPTENTRIES at hn
    unfold PGSIZE at *
    omega
  rw [pgrounddown_mul, hlast]

theorem NPAGES_eq_succ : NPAGES = NPAGES - 1 + 1 := by
  unfold NPAGES NPDENTRIES NPTENTRIES
  omega

theorem mappages_page (d : PgDir) (m : Mem) (hv : v < NPAGES)
    : mappages d (v * PGSIZE) PGSIZE pa write user m = mapPage write user d (v * PGSIZE) pa m := by
  rw [mappages_eq (n := 0) d m hv (by simp), NPAGES_eq_succ]
  unfold mappagesLoop
  simp only [Nat.add_zero, ↓reduceIte]
  split
  . next h => rw [h]
  . next h => rw [h]
  . next h => rw [h]

theorem uint_next {n : Nat} (hv : v + n + 1 < NPAGES) : uint (v * PGSIZE + PGSIZE) = (v + 1) * PGSIZE := by
  unfold uint
  unfold NPAGES NPDENTRIES NPTENTRIES at hv
  unfold PGSIZE
  omega

-- The ranges of `setupkvm` are free, so the only way to fail is to run out of page tables.
theorem mappagesLoop_spec (n : Nat) (pa : Ppn) {fuel : Nat} (hd : d.Wf) (hv : v + n < NPAGES) (hfuel : n < fuel)
    (hkern : UPAGES ≤ v) (habsent : ∀ w ∈ Set.Icc v (v + n), (d.pte w).present = false)
    : ∃ ok d' m' Δ, mappagesLoop write false ((v + n) * PGSIZE) fuel d (v * PGSIZE) pa m = .ok (ok, d', m') ∧
        Maps d m d' m' (Set.Icc v (v + n)) Δ ∧
        (ok = true → ∀ w ∈ Set.Icc v (v + n), (d'.pte w).present = true) ∧
        (ok = false → m'.free = [] ∧ ∃ w ∈ Set.Icc v (v + n), d'.tab (w / NPTENTRIES) = none) := by
  obtain ⟨fuel, rfl⟩ : ∃ k, fuel = k + 1 := ⟨fuel - 1, by omega⟩
  induction n generalizing d m v pa fuel with
  | zero =>
    unfold mappagesLoop
    have hmem : v ∈ Set.Icc v (v + 0) := by simp
    have hv : v < NPAGES := hv
    rcases mapPage_cases write false pa hd m hv (by simp) (by simp) with
      ⟨htab, hfree, heq⟩ | ⟨hpresent, -⟩ | ⟨-, -, d', m', Δ, heq, hmaps, hpte⟩
    . rw [heq]
      exact ⟨false, d, m, 0, rfl, .refl hd m _, by simp, fun _ => ⟨hfree, v, hmem, htab⟩⟩
    . simp [habsent v hmem] at hpresent
    . rw [heq]
      simp only [Nat.add_zero, ↓reduceIte]
      refine ⟨true, d', m', Δ, rfl, hmaps.mono (by simp), ?_, by simp⟩
      intro _ w hw
      simp only [Set.Icc_self, Set.mem_singleton_iff] at hw
      rw [hw, hpte]
  | succ n ih =>
    unfold mappagesLoop
    have hmem : v ∈ Set.Icc v (v + (n + 1)) := by simp
    rcases mapPage_cases write false pa hd m (v := v) (by omega) (by simp) (by simp) with
      ⟨htab, hfree, heq⟩ | ⟨hpresent, -⟩ | ⟨-, -, d1, m1, Δ1, heq, hmaps, hpte⟩
    . rw [heq]
      exact ⟨false, d, m, 0, rfl, .refl hd m _, by simp, fun _ => ⟨hfree, v, hmem, htab⟩⟩
    . simp [habsent v hmem] at hpresent
    . rw [heq]
      dsimp only
      rw [if_neg (by unfold PGSIZE; omega), uint_next (n := n) (by omega)]
      have habsent' : ∀ w ∈ Set.Icc (v + 1) (v + 1 + n), (d1.pte w).present = false := by
        intro w hw
        rw [Set.mem_Icc] at hw
        rw [hmaps.pte w (by rw [Set.mem_singleton_iff]; omega)]
        apply habsent
        rw [Set.mem_Icc]
        omega
      obtain ⟨fuel, rfl⟩ : ∃ k, fuel = k + 1 := ⟨fuel - 1, by omega⟩
      obtain ⟨ok, d', m', Δ', heq', hmaps', htrue, hfalse⟩ :=
        ih (pa + 1) (m := m1) hmaps.wf (by omega) (by omega) habsent' fuel (by omega)
      have hlast : v + (n + 1) = v + 1 + n := by omega
      rw [hlast]
      refine ⟨ok, d', m', Δ1 + Δ', heq', (hmaps.trans hmaps').mono ?_, ?_, ?_⟩
      . intro w hw
        simp only [Set.mem_union, Set.mem_singleton_iff, Set.mem_Icc] at hw ⊢
        omega
      . intro hok w hw
        by_cases hwv : w = v
        . rw [hwv, hmaps'.pte v (by simp), hpte]
        . apply htrue hok
          rw [Set.mem_Icc] at hw ⊢
          omega
      . intro hok
        obtain ⟨hfree, w, hw, htab⟩ := hfalse hok
        refine ⟨hfree, w, ?_, htab⟩
        rw [Set.mem_Icc] at hw ⊢
        omega

end

end Xv6.Vm
