import Xv6.Vm.Lemmas.Boot

/-!
The kernel's part of an address space. `setupkvm` maps it and nothing else changes it, so a `deallocuvm` that begins
below `KERNBASE` and goes on above it ends in the panic of `kfree`.
-/

namespace Xv6.Vm

namespace PgDir

-- The physical memory from `KERNBASE` on and the devices at the top, which stay where they are.
structure KernMapped (d : PgDir) : Prop where
  phys : ∀ q < PHYSTOP / PGSIZE, (d.pte (UPAGES + q)).present = true ∧ (d.pte (UPAGES + q)).addr = q
  dev : ∀ v < NPAGES, DEVSPACE / PGSIZE ≤ v → (d.pte v).present = true ∧ (d.pte v).addr = v
  gap : ∀ v < DEVSPACE / PGSIZE, UPAGES + PHYSTOP / PGSIZE ≤ v → (d.pte v).present = false

variable {d d' : PgDir} {v : Nat}

theorem KernMapped.congr (hk : d.KernMapped) (h : ∀ v, UPAGES ≤ v → d'.pte v = d.pte v) : d'.KernMapped where
  phys q hq := by
    rw [h _ (Nat.le_add_right _ _)]
    exact hk.phys q hq
  dev v hv hdev := by
    rw [h v (Nat.le_trans (by decide) hdev)]
    exact hk.dev v hv hdev
  gap v hv hgap := by
    rw [h v (Nat.le_trans (Nat.le_add_right _ _) hgap)]
    exact hk.gap v hv hgap

theorem KernMapped.setPte (hk : d.KernMapped) (hv : v < UPAGES) (e : Pte) : (d.setPte v e).KernMapped := by
  apply hk.congr
  intro w hw
  rw [setPte_pte, if_neg (by omega)]

end PgDir

section

variable {L : Layout} {d d' : PgDir} {m m' : Mem} {v w : Nat}

-- The `n + 1` pages from `v` on are mapped to those from `pa` on, and the others are as before.
structure Linear (d : PgDir) (v n : Nat) (pa : Ppn) (d' : PgDir) : Prop where
  wf : d'.Wf
  pte : ∀ w, w ∉ Set.Icc v (v + n) → d'.pte w = d.pte w
  maps : ∀ k ≤ n, (d'.pte (v + k)).present = true ∧ (d'.pte (v + k)).addr = pa + k

theorem mapPage_linear {write : Bool} {pa : Ppn} (hd : d.Wf) (hv : v < NPAGES)
    (h : mapPage write false d (v * PGSIZE) pa m = .ok (true, d', m'))
    : Linear d v 0 pa d' := by
  rcases mapPage_cases write false pa hd m hv (by simp) (by simp) with
    ⟨-, -, heq⟩ | ⟨-, heq⟩ | ⟨-, -, d1, m1, Δ, heq, hmaps, hpte⟩
  . rw [heq] at h
    cases h
  . rw [heq] at h
    cases h
  . rw [heq] at h
    cases h
    refine ⟨hmaps.wf, ?_, ?_⟩
    . intro w hw
      apply hmaps.pte
      simpa using hw
    . intro k hk
      obtain rfl : k = 0 := by omega
      rw [Nat.add_zero, hpte]
      exact ⟨rfl, rfl⟩

theorem Linear.cons {n : Nat} {pa : Ppn} {d1 : PgDir} (h : Linear d v 0 pa d1) (h' : Linear d1 (v + 1) n (pa + 1) d')
    : Linear d v (n + 1) pa d' where
  wf := h'.wf
  pte w hw := by
    rw [Set.mem_Icc] at hw
    rw [h'.pte w (by rw [Set.mem_Icc]; omega), h.pte w (by rw [Set.mem_Icc]; omega)]
  maps k hk := by
    cases k with
    | zero =>
      rw [h'.pte _ (by rw [Set.mem_Icc]; omega)]
      exact h.maps 0 (Nat.le_refl 0)
    | succ k =>
      rw [← Nat.add_assoc, ← Nat.add_assoc, Nat.add_right_comm v k, Nat.add_right_comm pa k]
      exact h'.maps k (by omega)

theorem mappagesLoop_linear {write : Bool} {n fuel : Nat} {pa : Ppn} (hd : d.Wf) (hv : v + n < NPAGES)
    (h : mappagesLoop write false ((v + n) * PGSIZE) fuel d (v * PGSIZE) pa m = .ok (true, d', m'))
    : Linear d v n pa d' := by
  induction n generalizing d m v pa fuel with
  | zero =>
    cases fuel with
    | zero => cases h
    | succ fuel =>
      unfold mappagesLoop at h
      split at h
      . cases h
      . cases h
      . next hpage =>
        rw [Nat.add_zero, if_pos rfl] at h
        cases h
        exact mapPage_linear hd hv hpage
  | succ n ih =>
    cases fuel with
    | zero => cases h
    | succ fuel =>
      unfold mappagesLoop at h
      split at h
      . cases h
      . cases h
      . next hpage =>
        have hfirst := mapPage_linear hd (by omega) hpage
        rw [if_neg (by unfold PGSIZE; omega), uint_next (n := n) (by omega), show v + (n + 1) = v + 1 + n by omega] at h
        exact hfirst.cons (ih hfirst.wf (by omega) h)

/-!
`setupkvm`.
-/

-- Where the kernel finds its page `v`.
def kernPpn (v : Nat) : Nat :=
  if v < DEVSPACE / PGSIZE then v - UPAGES else v

theorem kernPpn_of_lt (h : v < 1040384) : kernPpn v = v - 524288 :=
  if_pos h

theorem kernPpn_of_le (h : 1040384 ≤ v) : kernPpn v = v :=
  if_neg (Nat.not_lt.mpr h)

-- `k` covers the pages of `r` and maps them to where the kernel finds them.
structure Places (k : Kmap) (r : Nat × Nat) : Prop where
  covers : Covers k r
  ppn : ∀ i ≤ r.2, kernPpn (r.1 + i) = k.physStart / PGSIZE + i

theorem kmap_places (L : Layout) : List.Forall₂ Places (kmap L) (kspans L) := by
  obtain ⟨q, hq, hlo, hhi⟩ := L.data_bounds
  have hcovers := kmap_covers L
  unfold kmap kspans at hcovers ⊢
  simp only [List.forall₂_cons, List.forall₂_nil_right_iff] at hcovers ⊢
  obtain ⟨h1, h2, h3, h4, -⟩ := hcovers
  refine ⟨⟨h1, ?_⟩, ⟨h2, ?_⟩, ⟨h3, ?_⟩, ⟨h4, ?_⟩, trivial⟩
  all_goals
    intro i hi
    simp only [UPAGES, KERNBASE, EXTMEM, PHYSTOP, DEVSPACE, PGSIZE, hq] at hi ⊢
  . rw [kernPpn_of_lt (by omega)]
    omega
  . rw [kernPpn_of_lt (by omega)]
    omega
  . rw [kernPpn_of_lt (by omega)]
    omega
  . rw [kernPpn_of_le (by omega)]

theorem Places.mappages {k : Kmap} {r : Nat × Nat} (hk : Places k r) (hd : d.Wf)
    (h : mappages d k.virt (uint (k.physEnd + 2 ^ 32 - k.physStart)) (k.physStart / PGSIZE) k.write false m
      = .ok (true, d', m'))
    : Linear d r.1 r.2 (k.physStart / PGSIZE) d' := by
  rw [hk.covers.virt, mappages_eq d m hk.covers.lt hk.covers.size] at h
  exact mappagesLoop_linear hd hk.covers.lt h

theorem setupLoop_places {ks : List Kmap} {rs : List (Nat × Nat)} (hks : List.Forall₂ Places ks rs)
    (hdisj : rs.Pairwise fun r r' => Disjoint (span r) (span r')) (hd : d.Wf)
    (h : setupLoop L ks d m = .ok (some d', m'))
    : (∀ w, w ∉ spans rs → d'.pte w = d.pte w) ∧
        ∀ w ∈ spans rs, (d'.pte w).present = true ∧ (d'.pte w).addr = kernPpn w := by
  induction hks generalizing d m with
  | nil =>
    cases h
    exact ⟨fun _ _ => rfl, by rintro w ⟨r, hr, -⟩; simp at hr⟩
  | @cons k r ks rs hk hks ih =>
    rw [List.pairwise_cons] at hdisj
    rw [spans_cons]
    unfold setupLoop at h
    split at h
    . cases h
    . next d1 m1 hmap =>
      have hlinear := hk.mappages hd hmap
      obtain ⟨hpte, hmapped⟩ := ih hdisj.2 hlinear.wf h
      constructor
      . intro w hw
        rw [Set.mem_union, not_or] at hw
        rw [hpte w hw.2, hlinear.pte w hw.1]
      . rintro w (hw | hw)
        . have hout : w ∉ spans rs := by
            rintro ⟨r', hr', hw'⟩
            exact Set.disjoint_left.mp (hdisj.1 r' hr') hw hw'
          obtain ⟨i, rfl⟩ := Nat.exists_eq_add_of_le hw.1
          have hi : i ≤ r.2 := Nat.le_of_add_le_add_left hw.2
          rw [hpte _ hout, hk.ppn i hi]
          exact hlinear.maps i hi
        . exact hmapped w hw
    . split at h <;> cases h

theorem setupkvm_kernMapped (h : setupkvm L m = .ok (some d, m')) : d.KernMapped := by
  unfold setupkvm at h
  split at h
  . cases h
  . next pgdir m1 hp =>
    dsimp only at h
    rw [if_neg (by decide)] at h
    have hwf : ({ page := pgdir, tab := fun _ => none, pte := fun _ => .zero } : PgDir).Wf := by
      constructor <;> simp [Pte.zero]
    obtain ⟨hpte, hmapped⟩ := setupLoop_places (kmap_places L) (kspans_disjoint L) hwf h
    have hspan : ∀ w, (524288 ≤ w ∧ w < 581632 ∨ 1040384 ≤ w ∧ w < 1048576) →
        (d.pte w).present = true ∧ (d.pte w).addr = kernPpn w := fun w hw => hmapped w (mem_kspans.mpr hw)
    constructor
    . intro q hq
      have hq : q < 57344 := hq
      rw [show UPAGES = 524288 from rfl]
      obtain ⟨hpresent, haddr⟩ := hspan (524288 + q) (by omega)
      refine ⟨hpresent, haddr.trans ?_⟩
      rw [kernPpn_of_lt (by omega)]
      exact Nat.add_sub_cancel_left 524288 q
    . intro v hv hdev
      have hv : v < 1048576 := hv
      have hdev : 1040384 ≤ v := hdev
      obtain ⟨hpresent, haddr⟩ := hspan v (by omega)
      exact ⟨hpresent, haddr.trans (kernPpn_of_le hdev)⟩
    . intro v hv hgap
      have hv : v < 1040384 := hv
      have hgap : 581632 ≤ v := hgap
      rw [hpte v (by rw [mem_kspans]; omega)]
      rfl

theorem userinit_kernMapped {init : List UInt8} {s : State} (h : userinit L init m = .ok s)
    (hs : m.Sound (Valid L) 0)
    : ∀ p x, s.procs p = some x → x.pgdir.KernMapped := by
  unfold userinit at h
  split at h
  . cases h
  . next kstack m1 hp =>
    have hfree : ∀ p ∈ m1.free, Valid L p :=
      fun p hp' => ((Mem.kalloc_xfer hp).sound hs).valid p (Multiset.mem_add.mpr (.inr hp'))
    split at h
    . cases h
    . cases h
    . next d m2 hsetup =>
      have hk := setupkvm_kernMapped hsetup
      split at h
      . cases h
      . next d' m3 hinit =>
        cases h
        rcases setupkvm_cases hfree with ⟨-, d1, m4, heq, hwf, -⟩ | ⟨-, m4, heq, -⟩
        . rw [hsetup] at heq
          cases heq
          obtain ⟨-, hpte, -⟩ := inituvm_xfer hwf hinit
          intro p x hx
          dsimp only at hx
          split at hx
          . cases hx
            exact hk.congr fun v hv => hpte v (Nat.ne_of_gt (Nat.lt_of_lt_of_le (by decide) hv))
          . cases hx
        . rw [hsetup] at heq
          cases heq

/-!
`deallocuvm`.
-/

theorem deallocLoop_kern_page (m : Mem) (fuel : Nat) {oldsz : Nat} (hd : d.Wf) (hlt : v * PGSIZE < oldsz)
    (hv : UPAGES ≤ v) (hpresent : (d.pte v).present = true)
    : (Valid L (d.pte v).addr ∧ deallocLoop L oldsz (fuel + 1) d (v * PGSIZE) m = .error .undef) ∨
      (¬ Valid L (d.pte v).addr ∧ deallocLoop L oldsz (fuel + 1) d (v * PGSIZE) m = .error (.panic "kfree")) := by
  have hkern : v * PGSIZE ≥ KERNBASE := Nat.mul_le_mul_right PGSIZE hv
  unfold deallocLoop
  rw [if_pos hlt, walkpgdir_false_eq, if_pos (hd.isSome_tab hpresent), mul_pgsize_div]
  dsimp only
  rw [if_pos hpresent]
  split
  . next hzero => exact .inr ⟨fun hvalid => hvalid.ne_zero hzero, rfl⟩
  . by_cases hvalid : Valid L (d.pte v).addr
    . rw [Mem.kfree_of_valid hvalid]
      dsimp only
      exact .inl ⟨hvalid, rfl⟩
    . have hpanic : m.kfree L (d.pte v).addr = .error (.panic "kfree") := by
        apply if_pos
        rwa [Valid, not_and_or, Nat.not_le, Nat.not_lt] at hvalid
      rw [hpanic]
      exact .inr ⟨hvalid, rfl⟩

-- From a page that is absent the loop never goes past the next one that is present.
theorem deallocLoop_skip (fuel : Nat) {oldsz : Nat} (hd : d.Wf) (hlt : v * PGSIZE < oldsz)
    (habsent : (d.pte v).present = false) (hvw : v ≤ w) (hw : w < NPAGES) (hpresent : (d.pte w).present = true)
    : ∃ v', v < v' ∧ v' ≤ w ∧
        deallocLoop L oldsz (fuel + 1) d (v * PGSIZE) m = deallocLoop L oldsz fuel d (v' * PGSIZE) m := by
  obtain ⟨v', hv', hskip, heq⟩ := deallocLoop_absent L m fuel hd hlt habsent
  have hnext : v < v' := by
    unfold NPTENTRIES at hv'
    omega
  have hle : v' ≤ w := by
    by_contra hgt
    rw [hskip w hvw (by omega)] at hpresent
    cases hpresent
  have hend : v' * PGSIZE < 2 ^ 32 := Nat.mul_lt_mul_of_pos_right (Nat.lt_of_le_of_lt hle hw) (by decide)
  rw [uint_eq_self hend] at heq
  exact ⟨v', hnext, hle, heq⟩

-- The first page of the kernel is at the physical address 0, which `kfree` never takes.
theorem deallocLoop_enters (fuel : Nat) {oldsz : Nat} (hd : d.Wf) (hk : d.KernMapped) (hsz : KERNBASE < oldsz)
    (hv : v ≤ UPAGES) (hfuel : UPAGES < v + fuel)
    (hvalid : ∀ w < UPAGES, (d.pte w).present = true → Valid L (d.pte w).addr)
    : deallocLoop L oldsz fuel d (v * PGSIZE) m = .error (.panic "kfree") := by
  induction fuel generalizing d m v with
  | zero => omega
  | succ fuel ih =>
    have hlt : v * PGSIZE < oldsz := Nat.lt_of_le_of_lt (Nat.mul_le_mul_right PGSIZE hv) hsz
    have hfirst : (d.pte UPAGES).present = true ∧ (d.pte UPAGES).addr = 0 := hk.phys 0 (by decide)
    by_cases hu : v = UPAGES
    . subst hu
      rcases deallocLoop_kern_page (L := L) m fuel hd hlt hv hfirst.1 with ⟨h, -⟩ | ⟨-, heq⟩
      . exact absurd hfirst.2 h.ne_zero
      . exact heq
    . have hu : v < UPAGES := by omega
      cases hpresent : (d.pte v).present with
      | false =>
        obtain ⟨v', hnext, hle, heq⟩ := deallocLoop_skip fuel hd hlt hpresent hv (by decide) hfirst.1
        rw [heq]
        exact ih hd hk hle (by omega) hvalid
      | true =>
        rw [deallocLoop_present m fuel hd hlt hu hpresent, Mem.kfree_of_valid (hvalid v hu hpresent)]
        have hout := Shrinks.page_out hd hu hpresent (Mem.kfree_of_valid (hvalid v hu hpresent) m)
        apply ih hout.wf (hk.setPte hu .zero) hu (by omega)
        intro w hw hpresent'
        rw [PgDir.setPte_pte] at hpresent' ⊢
        split at hpresent'
        . cases hpresent'
        . next hne =>
          rw [if_neg hne]
          exact hvalid w hw hpresent'

-- Above the physical memory there is nothing up to the devices.
theorem deallocLoop_gap (fuel : Nat) {oldsz : Nat} (hd : d.Wf) (hk : d.KernMapped)
    (hgap : UPAGES + PHYSTOP / PGSIZE ≤ v) (hv : v ≤ DEVSPACE / PGSIZE) (hfuel : DEVSPACE / PGSIZE < v + fuel)
    : deallocLoop L oldsz fuel d (v * PGSIZE) m
        =
      if DEVSPACE < oldsz then .error (.panic "kfree") else .ok (d, m) := by
  induction fuel generalizing v with
  | zero => omega
  | succ fuel ih =>
    have hfirst : (d.pte (DEVSPACE / PGSIZE)).present = true ∧ (d.pte (DEVSPACE / PGSIZE)).addr = DEVSPACE / PGSIZE :=
      hk.dev _ (by decide) (Nat.le_refl _)
    by_cases hlt : v * PGSIZE < oldsz
    . by_cases hdev : v = DEVSPACE / PGSIZE
      . subst hdev
        rw [if_pos (show DEVSPACE < oldsz from hlt)]
        rcases deallocLoop_kern_page (L := L) m fuel hd hlt (by decide) hfirst.1 with ⟨h, -⟩ | ⟨-, heq⟩
        . rw [hfirst.2] at h
          exact absurd h.2 (by decide)
        . exact heq
      . obtain ⟨v', hnext, hle, heq⟩ :=
          deallocLoop_skip fuel hd hlt (hk.gap v (by omega) hgap) hv (by decide) hfirst.1
        rw [heq]
        exact ih (by omega) hle (by omega)
    . have hle : v * PGSIZE ≤ DEVSPACE := Nat.mul_le_mul_right PGSIZE hv
      unfold deallocLoop
      rw [if_neg hlt, if_neg (by omega)]

-- The page at `a` is one that the kernel uses, it is below `sz`, and `kfree` takes it.
def HitsKernel (L : Layout) (a sz : Nat) : Prop :=
  KERNBASE + L.kend ≤ a ∧ a < KERNBASE + PHYSTOP ∧ a < sz

theorem valid_iff {p : Nat} : Valid L p ↔ L.kend ≤ p * PGSIZE ∧ p * PGSIZE < PHYSTOP := Iff.rfl

theorem deallocLoop_kern (oldsz : Nat) (hd : d.Wf) (hk : d.KernMapped) (hu : UPAGES ≤ v) (hv : v < NPAGES)
    : (HitsKernel L (v * PGSIZE) oldsz ∧ deallocLoop L oldsz NPAGES d (v * PGSIZE) m = .error .undef) ∨
      (¬ HitsKernel L (v * PGSIZE) oldsz ∧ (deallocLoop L oldsz NPAGES d (v * PGSIZE) m = .error (.panic "kfree") ∨
        ∃ r, deallocLoop L oldsz NPAGES d (v * PGSIZE) m = .ok r)) := by
  obtain ⟨fuel, hfuel⟩ : ∃ fuel, NPAGES = fuel + 1 := ⟨NPAGES - 1, by decide⟩
  have hkend := L.kend_lt
  unfold HitsKernel
  by_cases hlt : v * PGSIZE < oldsz
  . -- a page that is mapped decides what happens
    have hpage : (d.pte v).present = true → (Valid L (d.pte v).addr ↔ HitsKernel L (v * PGSIZE) oldsz) →
        (HitsKernel L (v * PGSIZE) oldsz ∧ deallocLoop L oldsz NPAGES d (v * PGSIZE) m = .error .undef) ∨
        (¬ HitsKernel L (v * PGSIZE) oldsz ∧
          (deallocLoop L oldsz NPAGES d (v * PGSIZE) m = .error (.panic "kfree") ∨
            ∃ r, deallocLoop L oldsz NPAGES d (v * PGSIZE) m = .ok r)) := by
      intro hpresent hiff
      rw [← hiff, hfuel]
      rcases deallocLoop_kern_page (L := L) m fuel hd hlt hu hpresent with h | ⟨hvalid, heq⟩
      . exact .inl h
      . exact .inr ⟨hvalid, .inl heq⟩
    obtain ⟨q, rfl⟩ := Nat.exists_eq_add_of_le hu
    have haddr : (UPAGES + q) * PGSIZE = KERNBASE + q * PGSIZE := Nat.add_mul _ _ _
    by_cases hphys : q < PHYSTOP / PGSIZE
    . obtain ⟨hpresent, hq⟩ := hk.phys q hphys
      apply hpage hpresent
      have : q * PGSIZE < PHYSTOP := Nat.mul_lt_mul_of_pos_right hphys (by decide)
      rw [hq, valid_iff, HitsKernel]
      omega
    . have hhigh : PHYSTOP ≤ q * PGSIZE := Nat.mul_le_mul_right PGSIZE (Nat.not_lt.mp hphys)
      by_cases hdev : UPAGES + q < DEVSPACE / PGSIZE
      . refine .inr ⟨by omega, ?_⟩
        rw [deallocLoop_gap NPAGES hd hk (by omega) (Nat.le_of_lt hdev)
          (Nat.lt_of_lt_of_le (by decide) (Nat.le_add_left _ _))]
        split
        . exact .inl rfl
        . exact .inr ⟨_, rfl⟩
      . obtain ⟨hpresent, hq⟩ := hk.dev _ hv (Nat.not_lt.mp hdev)
        apply hpage hpresent
        rw [hq, valid_iff, HitsKernel]
        omega
  . refine .inr ⟨by omega, .inr ⟨(d, m), ?_⟩⟩
    rw [hfuel]
    exact if_neg hlt

theorem deallocuvm_kern {oldsz newsz : Nat} (hd : d.Wf) (hk : d.KernMapped) (hsz : KERNBASE < oldsz)
    (hlt : newsz < oldsz) (hvalid : ∀ w < UPAGES, (d.pte w).present = true → Valid L (d.pte w).addr)
    : (HitsKernel L (pgroundup newsz) oldsz ∧ deallocuvm L d oldsz newsz m = .error .undef) ∨
      (¬ HitsKernel L (pgroundup newsz) oldsz ∧
        (deallocuvm L d oldsz newsz m = .error (.panic "kfree") ∨ ∃ r, deallocuvm L d oldsz newsz m = .ok r)) := by
  obtain ⟨v, hv, hround⟩ : ∃ v < NPAGES, pgroundup newsz = v * PGSIZE :=
    ⟨_, Nat.div_lt_of_lt_mul (uint_lt _), rfl⟩
  unfold deallocuvm
  rw [if_neg (Nat.not_le.mpr hlt), hround]
  by_cases hu : UPAGES ≤ v
  . rcases deallocLoop_kern (L := L) (m := m) oldsz hd hk hu hv with ⟨hhits, heq⟩ | ⟨hhits, heq | ⟨r, heq⟩⟩
    . exact .inl ⟨hhits, by rw [heq]⟩
    . exact .inr ⟨hhits, .inl (by rw [heq])⟩
    . exact .inr ⟨hhits, .inr ⟨_, by rw [heq]⟩⟩
  . have hu : v ≤ UPAGES := Nat.le_of_not_le hu
    have hfuel : UPAGES < v + NPAGES := Nat.lt_of_lt_of_le (by decide) (Nat.le_add_left _ _)
    rw [deallocLoop_enters NPAGES hd hk hsz hu hfuel hvalid]
    refine .inr ⟨fun h => ?_, .inl rfl⟩
    have hle : v * PGSIZE ≤ KERNBASE := Nat.mul_le_mul_right PGSIZE hu
    have := h.1
    have := L.extmem_lt
    have := L.data_le
    omega

end

end Xv6.Vm
