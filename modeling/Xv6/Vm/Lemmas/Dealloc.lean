import Mathlib.Data.List.Intervals
import Mathlib.Order.Interval.Finset.Nat
import Xv6.Lib.Outcome
import Xv6.Vm.Lemmas.Map

/-!
`deallocuvm` and `freevm`. Whatever the sizes, they free nothing but pages of the address space, and below
`KERNBASE` they free exactly the pages that are present.
-/

namespace Xv6.Vm

namespace PgDir

-- The address space without the pages from `lo` to `hi`.
def clear (d : PgDir) (lo hi : Nat) : PgDir :=
  { d with pte := fun v => if lo ≤ v ∧ v < hi then .zero else d.pte v }

variable {d : PgDir} {lo hi v : Nat}

theorem clear_pte : (d.clear lo hi).pte v = if lo ≤ v ∧ v < hi then .zero else d.pte v := rfl

theorem clear_of_le (d : PgDir) (h : hi ≤ lo) : d.clear lo hi = d := by
  unfold clear
  congr
  funext v
  rw [if_neg (by omega)]

theorem clear_step (hd : d.Wf) (h : lo < hi)
    : (if (d.pte lo).present then d.setPte lo .zero else d).clear (lo + 1) hi = d.clear lo hi := by
  have hlo : ∀ v, (if (d.pte lo).present then d.setPte lo .zero else d).pte v
      = if v = lo then .zero else d.pte v := by
    intro v
    split
    . simp
    . next hpresent =>
      split
      . next hv =>
        rw [hv]
        exact hd.zero lo (by simpa using hpresent)
      . rfl
  have hpte : ∀ v, ((if (d.pte lo).present then d.setPte lo .zero else d).clear (lo + 1) hi).pte v
      = (d.clear lo hi).pte v := by
    intro v
    rw [clear_pte, clear_pte, hlo]
    by_cases hv : v = lo
    . simp [hv, h]
    . by_cases hr : lo ≤ v ∧ v < hi
      . rw [if_pos (by omega), if_pos hr]
      . rw [if_neg (by omega), if_neg hr, if_neg hv]
  have htab : (if (d.pte lo).present then d.setPte lo .zero else d).tab = d.tab := by
    split <;> rfl
  have hpage : (if (d.pte lo).present then d.setPte lo .zero else d).page = d.page := by
    split <;> rfl
  unfold clear at hpte ⊢
  simp only [mk.injEq]
  exact ⟨hpage, htab, funext hpte⟩

theorem clear_skip (hzero : ∀ w, lo ≤ w → w < v → d.pte w = .zero) (h : lo ≤ v)
    : d.clear v hi = d.clear lo hi := by
  unfold clear
  congr
  funext w
  by_cases hw : lo ≤ w ∧ w < v
  . rw [hzero w hw.1 hw.2, ite_self, ite_self]
  . by_cases hr : lo ≤ w ∧ w < hi
    . rw [if_pos (by omega), if_pos hr]
    . rw [if_neg (by omega), if_neg hr]

end PgDir

-- Pages below `KERNBASE` go out, everything else stays.
structure Shrinks (d : PgDir) (m : Mem) (d' : PgDir) (m' : Mem) (Δ : Multiset Ppn) : Prop where
  page : d'.page = d.page
  tab : d'.tab = d.tab
  wf : d'.Wf
  pte : ∀ v, d'.pte v = d.pte v ∨ (v < UPAGES ∧ (d.pte v).present = true ∧ d'.pte v = .zero)
  xfer : m.Xfer Δ m' 0
  pages : d'.pages + Δ = d.pages

namespace Shrinks

variable {d d' d'' : PgDir} {m m' m'' : Mem} {Δ Δ' : Multiset Ppn}

theorem refl (hd : d.Wf) (m : Mem) : Shrinks d m d m 0 where
  page := rfl
  tab := rfl
  wf := hd
  pte _ := .inl rfl
  xfer := .refl m 0
  pages := by simp

theorem trans (h : Shrinks d m d' m' Δ) (h' : Shrinks d' m' d'' m'' Δ')
    : Shrinks d m d'' m'' (Δ + Δ') where
  page := h'.page.trans h.page
  tab := h'.tab.trans h.tab
  wf := h'.wf
  pte v := by
    rcases h'.pte v with hv | ⟨hv, hpresent, hzero⟩
    . rw [hv]
      exact h.pte v
    . right
      rcases h.pte v with hv' | ⟨-, hpresent', -⟩
      . rw [hv'] at hpresent
        exact ⟨hv, hpresent, hzero⟩
      . exact ⟨hv, hpresent', hzero⟩
  xfer := by
    have := h.xfer.frame Δ'
    rw [zero_add] at this
    exact this.trans h'.xfer
  pages := by rw [← h.pages, ← h'.pages, add_assoc, add_comm Δ']

theorem tabs (h : Shrinks d m d' m' Δ) : d'.tabs = d.tabs := by
  unfold PgDir.tabs
  rw [h.tab]

theorem frames (h : Shrinks d m d' m' Δ) : d'.frames + Δ = d.frames := by
  unfold PgDir.frames
  rw [h.page, h.tabs, add_assoc, h.pages]

theorem page_out {L : Layout} {v : Nat} (hd : d.Wf) (hv : v < UPAGES) (hpresent : (d.pte v).present = true)
    (hfree : m.kfree L (d.pte v).addr = .ok m')
    : Shrinks d m (d.setPte v .zero) m' {(d.pte v).addr} where
  page := rfl
  tab := rfl
  wf := by
    apply hd.setPte
    . exact hd.isSome_tab hpresent
    . simp
    . intro _
      rfl
    . simp [Pte.zero]
  pte w := by
    by_cases hw : w = v
    . subst hw
      exact .inr ⟨hv, hpresent, by simp⟩
    . simp [hw]
  xfer := Mem.kfree_xfer hfree
  pages := PgDir.setPte_pages_remove hv hpresent rfl

end Shrinks

section

variable {L : Layout} {d d' : PgDir} {m m' : Mem}

theorem walkpgdir_false_isSome {a : Nat} {r : PgDir × Mem} (h : walkpgdir d a false m = some r)
    : (d.tab (pdx a)).isSome := by
  unfold walkpgdir at h
  split at h
  . next p hp => simp [hp]
  . simp at h

theorem deallocLoop_shrinks {oldsz fuel a : Nat} (hd : d.Wf)
    (h : deallocLoop L oldsz fuel d a m = .ok (d', m'))
    : ∃ Δ, Shrinks d m d' m' Δ := by
  induction fuel generalizing d a m with
  | zero =>
    unfold deallocLoop at h
    split at h
    . simp at h
    . simp only [Except.ok.injEq, Prod.mk.injEq] at h
      obtain ⟨rfl, rfl⟩ := h
      exact ⟨0, .refl hd m⟩
  | succ fuel ih =>
    unfold deallocLoop at h
    split at h
    . split at h
      . exact ih hd h
      . dsimp only at h
        split at h
        . next hpresent =>
          split at h
          . simp at h
          . split at h
            . simp at h
            . next m1 hfree =>
              split at h
              . simp at h
              . next hkern =>
                have hv : a / PGSIZE < UPAGES := by
                  unfold UPAGES KERNBASE PGSIZE at *
                  omega
                have hout := Shrinks.page_out hd hv hpresent hfree
                obtain ⟨Δ, hrest⟩ := ih hout.wf h
                exact ⟨_, hout.trans hrest⟩
        . exact ih hd h
    . simp only [Except.ok.injEq, Prod.mk.injEq] at h
      obtain ⟨rfl, rfl⟩ := h
      exact ⟨0, .refl hd m⟩

theorem deallocuvm_shrinks {oldsz newsz sz : Nat} (hd : d.Wf)
    (h : deallocuvm L d oldsz newsz m = .ok (sz, d', m'))
    : ∃ Δ, Shrinks d m d' m' Δ := by
  unfold deallocuvm at h
  split at h
  . simp only [Except.ok.injEq, Prod.mk.injEq] at h
    obtain ⟨-, rfl, rfl⟩ := h
    exact ⟨0, .refl hd m⟩
  . split at h
    . simp at h
    . next d1 m1 hloop =>
      simp only [Except.ok.injEq, Prod.mk.injEq] at h
      obtain ⟨-, rfl, rfl⟩ := h
      exact deallocLoop_shrinks hd hloop

-- The number of pages up to an address.
def npages (sz : Nat) : Nat :=
  (sz + PGSIZE - 1) / PGSIZE

theorem lt_npages {v sz : Nat} : v < npages sz ↔ v * PGSIZE < sz := by
  unfold npages PGSIZE
  omega

theorem npages_mono {sz sz' : Nat} (h : sz ≤ sz') : npages sz ≤ npages sz' :=
  Nat.div_le_div_right (by omega)

theorem npages_le_upages {sz : Nat} (h : sz ≤ KERNBASE) : npages sz ≤ UPAGES := by
  unfold npages UPAGES KERNBASE PGSIZE at *
  omega

-- The loop passes over pages that are missing, one of them or all that are left of a missing page table.
theorem deallocLoop_absent (L : Layout) (m : Mem) (fuel : Nat) {oldsz v : Nat} (hd : d.Wf)
    (hlt : v * PGSIZE < oldsz) (habsent : (d.pte v).present = false)
    : ∃ v', (((d.tab (v / NPTENTRIES)).isSome ∧ v' = v + 1) ∨
          (d.tab (v / NPTENTRIES) = none ∧ v' = (v / NPTENTRIES + 1) * NPTENTRIES)) ∧
        (∀ w, v ≤ w → w < v' → (d.pte w).present = false) ∧
        deallocLoop L oldsz (fuel + 1) d (v * PGSIZE) m = deallocLoop L oldsz fuel d (uint (v' * PGSIZE)) m := by
  cases htab : d.tab (v / NPTENTRIES) with
  | none =>
    refine ⟨(v / NPTENTRIES + 1) * NPTENTRIES, .inr ⟨rfl, rfl⟩, ?_, ?_⟩
    . intro w hvw hw
      apply hd.tab
      have : w / NPTENTRIES = v / NPTENTRIES := by
        unfold NPTENTRIES at *
        omega
      rw [this, htab]
    . have hjump : uint (uint ((v / NPTENTRIES + 1) * (PGSIZE * NPTENTRIES) + 2 ^ 32 - PGSIZE) + PGSIZE)
          = uint ((v / NPTENTRIES + 1) * NPTENTRIES * PGSIZE) := by
        unfold uint NPTENTRIES PGSIZE
        omega
      conv_lhs => unfold deallocLoop
      rw [if_pos hlt, walkpgdir_false_eq, htab, if_neg (by simp)]
      dsimp only
      rw [pdx_mul, hjump]
  | some p =>
    refine ⟨v + 1, .inl ⟨by simp, rfl⟩, ?_, ?_⟩
    . intro w hvw hw
      rw [show w = v by omega, habsent]
    . conv_lhs => unfold deallocLoop
      rw [if_pos hlt, walkpgdir_false_eq, htab, if_pos (by simp)]
      dsimp only
      rw [mul_pgsize_div, if_neg (by simp [habsent]), Nat.succ_mul]

theorem deallocLoop_present (m : Mem) (fuel : Nat) {oldsz v : Nat} (hd : d.Wf) (hlt : v * PGSIZE < oldsz)
    (hv : v < UPAGES) (hpresent : (d.pte v).present = true)
    : deallocLoop L oldsz (fuel + 1) d (v * PGSIZE) m
        =
      m.kfree L (d.pte v).addr >>= deallocLoop L oldsz fuel (d.setPte v .zero) ((v + 1) * PGSIZE) := by
  have htab := hd.isSome_tab hpresent
  have hkern : ¬ v * PGSIZE ≥ KERNBASE := by
    unfold UPAGES KERNBASE PGSIZE at *
    omega
  conv_lhs => unfold deallocLoop
  rw [if_pos hlt, walkpgdir_false_eq, if_pos htab, mul_pgsize_div]
  dsimp only
  rw [if_pos hpresent, uint_next (n := 0) (succ_lt_NPAGES hv)]
  split
  . next hzero =>
    -- `kfree` panics as well
    have : m.kfree L 0 = .error (.panic "kfree") := by
      unfold Mem.kfree
      rw [if_pos]
      left
      rw [Nat.zero_mul]
      exact Nat.lt_of_lt_of_le (Nat.zero_lt_of_lt L.extmem_lt) L.data_le
    rw [hzero, this]
    rfl
  . cases m.kfree L (d.pte v).addr with
    | error e => rfl
    | ok m1 => rfl

theorem lt_upages_of_deallocLoop {oldsz fuel v : Nat} {r : PgDir × Mem} (hd : d.Wf) (hlt : v * PGSIZE < oldsz)
    (hpresent : (d.pte v).present = true) (h : deallocLoop L oldsz (fuel + 1) d (v * PGSIZE) m = .ok r)
    : v < UPAGES := by
  have htab := hd.isSome_tab hpresent
  unfold deallocLoop at h
  rw [if_pos hlt, walkpgdir_false_eq, if_pos htab, mul_pgsize_div] at h
  dsimp only at h
  rw [if_pos hpresent] at h
  split at h
  . simp at h
  . split at h
    . simp at h
    . split at h
      . simp at h
      . next hkern =>
        unfold UPAGES KERNBASE PGSIZE at *
        omega

-- If the addresses up to the last page `last` that the loop comes to are all below `oldsz`, it never ends.
theorem deallocLoop_wraps {last oldsz fuel v : Nat} {r : PgDir × Mem} (hd : d.Wf) (hlast : last * PGSIZE < oldsz)
    (hwrap : last + 1 = NPAGES ∨
      (last = (NPDENTRIES - 1) * NPTENTRIES ∧ d.tab (NPDENTRIES - 1) = none)) (hv : v ≤ last)
    : deallocLoop L oldsz fuel d (v * PGSIZE) m ≠ .ok r := by
  intro h
  have hlt : v * PGSIZE < oldsz := Nat.lt_of_le_of_lt (Nat.mul_le_mul_right PGSIZE hv) hlast
  induction fuel generalizing d v m with
  | zero =>
    unfold deallocLoop at h
    rw [if_pos hlt] at h
    simp at h
  | succ fuel ih =>
    have hnext : ∀ {w : Nat} {d1 : PgDir} {m1 : Mem}, d1.Wf → d1.tab = d.tab → w ≤ last →
        deallocLoop L oldsz fuel d1 (w * PGSIZE) m1 ≠ .ok r := by
      intro w d1 m1 hd1 htab hw h1
      apply ih hd1 (by rwa [htab]) hw h1
      exact Nat.lt_of_le_of_lt (Nat.mul_le_mul_right PGSIZE hw) hlast
    cases hpresent : (d.pte v).present with
    | false =>
      obtain ⟨v', hv', -, heq⟩ := deallocLoop_absent L m fuel hd hlt hpresent
      rw [heq] at h
      have hback : ∃ w ≤ last, uint (v' * PGSIZE) = w * PGSIZE := by
        by_cases hle : v' ≤ last
        . refine ⟨v', hle, uint_eq_self ?_⟩
          unfold NPAGES NPDENTRIES NPTENTRIES at hwrap
          unfold PGSIZE
          omega
        . refine ⟨0, Nat.zero_le last, ?_⟩
          have hend : v' = NPAGES := by
            unfold NPAGES NPDENTRIES NPTENTRIES at *
            rcases hwrap with hwrap | ⟨hwrap, htab⟩
            . omega
            . by_cases heq : v = last
              . have hdiv : v / 1024 = 1023 := by omega
                rw [hdiv, htab] at hv'
                simp at hv'
                omega
              . omega
          rw [hend]
          rfl
      obtain ⟨w, hw, hback⟩ := hback
      rw [hback] at h
      exact hnext hd rfl hw h
    | true =>
      have hu := lt_upages_of_deallocLoop hd hlt hpresent h
      rw [deallocLoop_present m fuel hd hlt hu hpresent] at h
      obtain ⟨m1, hfree, hrest⟩ := Outcome.bind_eq_ok h
      apply hnext (Shrinks.page_out hd hu hpresent hfree).wf (PgDir.setPte_tab _) _ hrest
      unfold UPAGES KERNBASE PGSIZE at hu
      unfold NPAGES NPDENTRIES NPTENTRIES at hwrap
      omega

theorem deallocLoop_clear {oldsz fuel v : Nat} (hd : d.Wf) (hsz : oldsz ≤ 2 ^ 32)
    (h : deallocLoop L oldsz fuel d (v * PGSIZE) m = .ok (d', m'))
    : d' = d.clear v (npages oldsz) := by
  induction fuel generalizing d v m with
  | zero =>
    unfold deallocLoop at h
    split at h
    . simp at h
    . next hlt =>
      rw [← lt_npages] at hlt
      simp only [Except.ok.injEq, Prod.mk.injEq] at h
      rw [d.clear_of_le (by omega), h.1]
  | succ fuel ih =>
    by_cases hlt : v * PGSIZE < oldsz
    . cases hpresent : (d.pte v).present with
      | false =>
        obtain ⟨v', hv', hskip, heq⟩ := deallocLoop_absent L m fuel hd hlt hpresent
        rw [heq] at h
        by_cases hend : v' * PGSIZE < 2 ^ 32
        . rw [uint_eq_self hend] at h
          rw [ih hd h]
          apply PgDir.clear_skip
          . intro w hvw hw
            exact hd.zero w (hskip w hvw hw)
          . unfold NPTENTRIES at hv'
            omega
        . -- back at the bottom of the address space
          have hzero : uint (v' * PGSIZE) = 0 * PGSIZE := by
            unfold uint
            unfold PGSIZE NPTENTRIES at *
            omega
          rw [hzero] at h
          exfalso
          rcases hv' with ⟨-, hv'⟩ | ⟨htab, hv'⟩
          . apply deallocLoop_wraps hd hlt (.inl _) (Nat.zero_le v) h
            unfold NPAGES NPDENTRIES NPTENTRIES
            unfold PGSIZE at *
            omega
          . have hdiv : v / NPTENTRIES = NPDENTRIES - 1 := by
              unfold NPDENTRIES
              unfold NPTENTRIES PGSIZE at *
              omega
            rw [hdiv] at htab
            apply deallocLoop_wraps hd _ (.inr ⟨rfl, htab⟩) (Nat.zero_le _) h
            rw [← hdiv]
            exact Nat.lt_of_le_of_lt (Nat.mul_le_mul_right PGSIZE (Nat.div_mul_le_self v NPTENTRIES)) hlt
      | true =>
        have hv := lt_upages_of_deallocLoop hd hlt hpresent h
        rw [deallocLoop_present m fuel hd hlt hv hpresent] at h
        obtain ⟨m1, hfree, hrest⟩ := Outcome.bind_eq_ok h
        have hout := Shrinks.page_out hd hv hpresent hfree
        have hstep := PgDir.clear_step hd (lt_npages.mpr hlt)
        rw [if_pos hpresent] at hstep
        rw [ih hout.wf hrest, hstep]
    . unfold deallocLoop at h
      rw [if_neg hlt] at h
      rw [← lt_npages] at hlt
      simp only [Except.ok.injEq, Prod.mk.injEq] at h
      rw [d.clear_of_le (by omega), h.1]

theorem pgroundup_eq_npages {sz : Nat} (h : sz ≤ KERNBASE) : pgroundup sz = npages sz * PGSIZE := by
  rw [pgroundup_eq]
  . rfl
  . unfold KERNBASE at h
    unfold PGSIZE
    omega

theorem deallocuvm_sz {oldsz newsz sz : Nat} (hlt : newsz < oldsz) (h : deallocuvm L d oldsz newsz m = .ok (sz, d', m'))
    : sz = newsz := by
  unfold deallocuvm at h
  rw [if_neg (by omega)] at h
  split at h
  . cases h
  . cases h
    rfl

theorem deallocuvm_clear {oldsz newsz sz : Nat} (hd : d.Wf) (hsz : oldsz ≤ 2 ^ 32)
    (h : deallocuvm L d oldsz newsz m = .ok (sz, d', m'))
    : d' = d.clear (npages newsz) (npages oldsz) := by
  unfold deallocuvm at h
  split at h
  . next hge =>
    simp only [Except.ok.injEq, Prod.mk.injEq] at h
    rw [d.clear_of_le (npages_mono hge), h.2.1]
  . split at h
    . simp at h
    . next hloop =>
      simp only [Except.ok.injEq, Prod.mk.injEq] at h
      rw [← h.2.1]
      by_cases hround : newsz + PGSIZE ≤ 2 ^ 32
      . rw [pgroundup_eq hround] at hloop
        exact deallocLoop_clear hd hsz hloop
      . -- `PGROUNDUP` wraps around to zero, and all addresses are below `oldsz`
        have hzero : pgroundup newsz = 0 * PGSIZE := by
          unfold pgroundup uint
          unfold PGSIZE at *
          omega
        rw [hzero] at hloop
        have hlast : (NPAGES - 1) * PGSIZE < oldsz := by
          unfold NPAGES NPDENTRIES NPTENTRIES
          unfold PGSIZE at *
          omega
        exact absurd hloop (deallocLoop_wraps hd hlast (.inl rfl) (Nat.zero_le _))

-- The pages at the virtual pages from `lo` to `hi`, from the bottom up.
def PgDir.mapped (d : PgDir) (lo hi : Nat) : List Ppn :=
  (List.Ico lo hi).filterMap d.frame

theorem PgDir.mapped_skip {lo v hi : Nat} (habsent : ∀ w, lo ≤ w → w < v → (d.pte w).present = false) (hlo : lo ≤ v)
    : d.mapped lo hi = d.mapped v hi := by
  unfold mapped
  by_cases hv : v ≤ hi
  . rw [← List.Ico.append_consecutive hlo hv, List.filterMap_append]
    have hnil : (List.Ico lo v).filterMap d.frame = [] := by
      rw [List.filterMap_eq_nil_iff]
      intro w hw
      rw [List.Ico.mem] at hw
      rw [frame_eq_none]
      exact habsent w hw.1 hw.2
    rw [hnil, List.nil_append]
  . rw [List.Ico.eq_nil_of_le (n := v) (by omega)]
    rw [List.filterMap_nil, List.filterMap_eq_nil_iff]
    intro w hw
    rw [List.Ico.mem] at hw
    rw [frame_eq_none]
    exact habsent w hw.1 (by omega)

theorem PgDir.mapped_cons {v hi : Nat} (hpresent : (d.pte v).present = true) (hv : v < hi)
    : d.mapped v hi = (d.pte v).addr :: (d.setPte v .zero).mapped (v + 1) hi := by
  unfold mapped
  rw [List.Ico.eq_cons hv, List.filterMap_cons_some (frame_eq_some.mpr ⟨hpresent, rfl⟩)]
  congr 1
  apply List.filterMap_congr
  intro w hw
  rw [List.Ico.mem] at hw
  rw [setPte_frame, Function.update_of_ne (by omega)]

-- Below `KERNBASE` the loop calls `kfree` for every page that is present, once, and for nothing else.
theorem deallocLoop_eq {oldsz fuel v : Nat} (hd : d.Wf) (hsz : oldsz ≤ KERNBASE)
    (hfuel : npages oldsz ≤ v + fuel)
    : deallocLoop L oldsz fuel d (v * PGSIZE) m
        =
      ((d.mapped v (npages oldsz)).foldlM (Mem.kfree L) m).map fun m => (d.clear v (npages oldsz), m) := by
  induction fuel generalizing d v m with
  | zero =>
    have hv : ¬ v * PGSIZE < oldsz := by
      rw [← lt_npages]
      omega
    unfold deallocLoop PgDir.mapped
    rw [if_neg hv, List.Ico.eq_nil_of_le (by omega), d.clear_of_le (by omega)]
    rfl
  | succ fuel ih =>
    by_cases hlt : v * PGSIZE < oldsz
    . have hv : v < npages oldsz := lt_npages.mpr hlt
      have hu : v < UPAGES := Nat.lt_of_lt_of_le hv (npages_le_upages hsz)
      cases hpresent : (d.pte v).present with
      | false =>
        obtain ⟨v', hv', hskip, heq⟩ := deallocLoop_absent L m fuel hd hlt hpresent
        unfold NPTENTRIES at hv'
        have hle : v < v' := by omega
        have hend : v' * PGSIZE < 2 ^ 32 := by
          unfold UPAGES KERNBASE PGSIZE at hu
          unfold PGSIZE
          omega
        rw [heq, uint_eq_self hend, ih hd (by omega), PgDir.mapped_skip hskip (by omega)]
        rw [PgDir.clear_skip (fun w hvw hw => hd.zero w (hskip w hvw hw)) (by omega)]
      | true =>
        rw [deallocLoop_present m fuel hd hlt hu hpresent, PgDir.mapped_cons hpresent hv, List.foldlM_cons]
        cases hfree : m.kfree L (d.pte v).addr with
        | error e => rfl
        | ok m1 =>
          have hstep := PgDir.clear_step hd hv
          rw [if_pos hpresent] at hstep
          rw [← hstep]
          exact ih (Shrinks.page_out hd hu hpresent hfree).wf (by omega)
    . rw [← lt_npages] at hlt
      unfold deallocLoop PgDir.mapped
      rw [if_neg (by rwa [← lt_npages]), List.Ico.eq_nil_of_le (by omega), d.clear_of_le (by omega)]
      rfl

theorem deallocuvm_eq {oldsz newsz : Nat} (hd : d.Wf) (hsz : oldsz ≤ KERNBASE) (hlt : newsz < oldsz)
    : deallocuvm L d oldsz newsz m
        =
      ((d.mapped (npages newsz) (npages oldsz)).foldlM (Mem.kfree L) m).map fun m =>
        (newsz, d.clear (npages newsz) (npages oldsz), m) := by
  have hfuel : npages oldsz ≤ npages newsz + NPAGES := by
    have := npages_le_upages hsz
    have : UPAGES ≤ NPAGES := by decide
    omega
  unfold deallocuvm
  rw [if_neg (by omega), pgroundup_eq_npages (by omega), deallocLoop_eq hd hsz hfuel]
  cases (d.mapped (npages newsz) (npages oldsz)).foldlM (Mem.kfree L) m <;> rfl

theorem foldlM_kfree_eq_ok {ps : List Ppn} (hvalid : ∀ p ∈ ps, Valid L p) (m : Mem)
    : ∃ m', ps.foldlM (Mem.kfree L) m = .ok m' := by
  induction ps generalizing m with
  | nil => exact ⟨m, rfl⟩
  | cons p ps ih =>
    rw [List.forall_mem_cons] at hvalid
    rw [List.foldlM_cons, Mem.kfree_of_valid hvalid.1]
    exact ih hvalid.2 _

theorem deallocuvm_eq_ok {oldsz newsz : Nat} (hd : d.Wf) (hsz : oldsz ≤ KERNBASE) (hlt : newsz < oldsz)
    (hvalid : ∀ w < UPAGES, (d.pte w).present = true → Valid L (d.pte w).addr)
    : ∃ m' Δ, deallocuvm L d oldsz newsz m = .ok (newsz, d.clear (npages newsz) (npages oldsz), m') ∧
        Shrinks d m (d.clear (npages newsz) (npages oldsz)) m' Δ := by
  have hmapped : ∀ p ∈ d.mapped (npages newsz) (npages oldsz), Valid L p := by
    intro p hp
    obtain ⟨v, hv, hframe⟩ := List.mem_filterMap.mp hp
    obtain ⟨hpresent, rfl⟩ := PgDir.frame_eq_some.mp hframe
    rw [List.Ico.mem] at hv
    exact hvalid v (Nat.lt_of_lt_of_le hv.2 (npages_le_upages hsz)) hpresent
  obtain ⟨m', hm'⟩ := foldlM_kfree_eq_ok hmapped m
  have heq := deallocuvm_eq (L := L) (m := m) hd hsz hlt
  rw [hm'] at heq
  obtain ⟨Δ, hshrinks⟩ := deallocuvm_shrinks hd heq
  exact ⟨m', Δ, heq, hshrinks⟩

theorem freeTabs_eq_ok {n i : Nat} (hn : i + n = NPDENTRIES)
    (hvalid : ∀ j p, d.tab j = some p → j < NPDENTRIES → Valid L p)
    : ∃ m', freeTabs L d n i m = .ok m' ∧ m.Xfer (Pool.cells d.tab (Finset.Ico i NPDENTRIES)) m' 0 := by
  induction n generalizing i m with
  | zero =>
    refine ⟨m, rfl, ?_⟩
    have : Finset.Ico i NPDENTRIES = ∅ := by
      rw [Finset.Ico_eq_empty_iff]
      omega
    rw [this, Pool.cells_empty]
    exact .refl m 0
  | succ n ih =>
    have hi : i ∈ Finset.Ico i NPDENTRIES := by
      rw [Finset.mem_Ico]
      omega
    have hrest : (Finset.Ico i NPDENTRIES).erase i = Finset.Ico (i + 1) NPDENTRIES := by
      ext j
      simp only [Finset.mem_erase, Finset.mem_Ico]
      omega
    have hcells := Pool.cells_eq_add (f := d.tab) hi
    rw [hrest] at hcells
    unfold freeTabs
    split
    . next htab =>
      rw [hcells, htab]
      simpa using ih (i := i + 1) (m := m) (by omega)
    . next p htab =>
      have hp := hvalid i p htab (by omega)
      obtain ⟨m', heq, hxfer⟩ := ih (i := i + 1) (m := (m.memset p 1).give p) (by omega)
      rw [Mem.kfree_of_valid hp]
      refine ⟨m', heq, ?_⟩
      rw [hcells, htab]
      have hout := (Mem.kfree_xfer (Mem.kfree_of_valid hp m)).frame
        (Pool.cells d.tab (Finset.Ico (i + 1) NPDENTRIES))
      rw [zero_add] at hout
      exact hout.trans hxfer

theorem clear_all_pages (d : PgDir) : (d.clear 0 UPAGES).pages = 0 := by
  unfold PgDir.pages Pool.cells
  apply Finset.sum_eq_zero
  intro v hv
  rw [Finset.mem_range] at hv
  have : (d.clear 0 UPAGES).frame v = none := by
    rw [PgDir.frame_eq_none, PgDir.clear_pte, if_pos ⟨Nat.zero_le v, hv⟩]
    rfl
  rw [this]
  rfl

theorem freevm_eq_ok (hd : d.Wf) (hvalid : ∀ p ∈ d.frames, Valid L p)
    : ∃ m', freevm L d m = .ok m' ∧ m.Xfer d.frames m' 0 := by
  have hpages : ∀ w < UPAGES, (d.pte w).present = true → Valid L (d.pte w).addr :=
    fun w hw hpresent => hvalid _ (PgDir.addr_mem_frames hw hpresent)
  have htabs : ∀ j p, d.tab j = some p → j < NPDENTRIES → Valid L p :=
    fun j p hp hj => hvalid p (PgDir.tab_mem_frames hj hp)
  have hpage : Valid L d.page := hvalid _ d.page_mem_frames
  have hzero : npages 0 = 0 := by decide
  have hkern : npages KERNBASE = UPAGES := by decide
  obtain ⟨m1, Δ, h1, hshrinks⟩ := deallocuvm_eq_ok (L := L) (m := m) hd (Nat.le_refl KERNBASE)
    (show 0 < KERNBASE by decide) hpages
  rw [hzero, hkern] at h1 hshrinks
  obtain ⟨m2, h2, hxfer⟩ := freeTabs_eq_ok (L := L) (d := d.clear 0 UPAGES) (m := m1) (n := NPDENTRIES) (i := 0)
    (by simp) htabs
  have h3 := Mem.kfree_of_valid hpage m2
  refine ⟨(m2.memset d.page 1).give d.page, ?_, ?_⟩
  . unfold freevm
    rw [h1]
    dsimp only
    rw [h2]
    exact h3
  . have hΔ : d.pages = Δ := by
      rw [← hshrinks.pages, clear_all_pages, zero_add]
    have htabs' : Pool.cells (d.clear 0 UPAGES).tab (Finset.Ico 0 NPDENTRIES) = d.tabs := by
      unfold PgDir.tabs
      rw [Finset.range_eq_Ico]
      rfl
    rw [htabs'] at hxfer
    have hframes : d.frames = Δ + (d.tabs + {d.page}) := by
      unfold PgDir.frames
      rw [hΔ, add_comm, add_comm {d.page} d.tabs]
    rw [hframes]
    have hfirst := hshrinks.xfer.frame (d.tabs + {d.page})
    have hsecond := hxfer.frame {d.page}
    rw [zero_add] at hfirst hsecond
    exact (hfirst.trans hsecond).trans (Mem.kfree_xfer h3)

end

end Xv6.Vm
