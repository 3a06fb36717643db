import Xv6.Vm.Impl.Report
import Xv6.Vm.Lemmas.Room

/-!
The memory report of lab 5 against the pages that are in use and the pages that are free.
-/

namespace Xv6.Vm

-- What `count_physical_pages` counts at the page `v`.
def Counted (d : PgDir) (v : Nat) : Prop :=
  (d.pte v).present = true ∧ (d.pte v).addr ≠ 0

instance (d : PgDir) (v : Nat) : Decidable (Counted d v) :=
  inferInstanceAs (Decidable (_ ∧ _))

section

variable {L : Layout} {d : PgDir} {m : Mem} {sz v : Nat}

theorem countPage_eq (hd : d.Wf) (v count : Nat) (m : Mem)
    : countPage d (v * PGSIZE) count m = count + if Counted d v then 1 else 0 := by
  unfold countPage
  rw [walkpgdir_false_eq, mul_pgsize_div]
  cases hpresent : (d.pte v).present with
  | false =>
    have hnot : ¬ Counted d v := by simp [Counted, hpresent]
    rw [if_neg hnot]
    split
    . rfl
    . simp [hpresent]
  | true =>
    rw [if_pos (hd.isSome_tab hpresent)]
    unfold Counted
    simp only [hpresent, ↓reduceIte, true_and]
    split
    . rfl
    . rfl

theorem countLoop_eq {fuel count : Nat} (hd : d.Wf) (hsz : sz + PGSIZE ≤ 2 ^ 32) (hfuel : npages sz ≤ v + fuel)
    : countLoop d sz m fuel (v * PGSIZE) count
        =
      .ok (count + ((Finset.Ico v (npages sz)).filter (Counted d)).card) := by
  induction fuel generalizing v count with
  | zero =>
    have hlt : ¬ v * PGSIZE < sz := by
      rw [← lt_npages]
      omega
    unfold countLoop
    rw [if_neg hlt, Finset.Ico_eq_empty_of_le (by omega)]
    rfl
  | succ fuel ih =>
    unfold countLoop
    split
    . next hlt =>
      have hv : v < npages sz := lt_npages.mpr hlt
      have hnext : uint (v * PGSIZE + PGSIZE) = (v + 1) * PGSIZE := by
        rw [uint_eq_self (by omega), Nat.succ_mul]
      have hsplit : ((Finset.Ico v (npages sz)).filter (Counted d)).card
          = (if Counted d v then 1 else 0) + ((Finset.Ico (v + 1) (npages sz)).filter (Counted d)).card := by
        have hinsert : Finset.Ico v (npages sz) = insert v (Finset.Ico (v + 1) (npages sz)) := by
          ext u
          rw [Finset.mem_insert, Finset.mem_Ico, Finset.mem_Ico]
          omega
        rw [hinsert, Finset.filter_insert]
        split
        . rw [Finset.card_insert_of_notMem (by simp), Nat.add_comm]
        . rw [Nat.zero_add]
      rw [countPage_eq hd, hnext, ih (by omega), hsplit, Nat.add_assoc]
    . next hlt =>
      rw [← lt_npages] at hlt
      rw [Finset.Ico_eq_empty_of_le (by omega)]
      rfl

theorem countPhysicalPages_eq (hd : d.Wf) (hsz : sz ≤ KERNBASE) (m : Mem)
    : countPhysicalPages d sz m = .ok ((Finset.range (npages sz)).filter (Counted d)).card := by
  have hround : sz + PGSIZE ≤ 2 ^ 32 := by
    unfold KERNBASE at hsz
    unfold PGSIZE
    omega
  have hfuel : npages sz ≤ 0 + NPAGES := by
    have := npages_le_upages hsz
    have : UPAGES ≤ NPAGES := by decide
    omega
  unfold countPhysicalPages
  rw [← Nat.zero_mul PGSIZE, countLoop_eq hd hround hfuel, Nat.zero_mul, Nat.zero_add, Finset.range_eq_Ico]

theorem pageTableSize_eq (d : PgDir) (sz : Nat) : pageTableSize d sz = 1 + tabCount d := by
  have hfold : ∀ n count, (List.range n).foldl (fun count i => if (d.tab i).isSome then count + 1 else count) count
      = count + ((Finset.range n).filter fun i => (d.tab i).isSome).card := by
    intro n count
    induction n with
    | zero => rfl
    | succ n ih =>
      rw [List.range_succ, List.foldl_append, ih, Finset.range_add_one, Finset.filter_insert, List.foldl_cons,
        List.foldl_nil]
      split
      . rw [Finset.card_insert_of_notMem (by simp), Nat.add_assoc]
      . rfl
  exact hfold NPDENTRIES 1

end

/-!
Address spaces on their own, from `setupkvm` on.
-/

inductive SpaceEvent where
  | allocuvm (oldsz newsz : Nat)
  | deallocuvm (oldsz newsz : Nat)
  | pgfault (sz va : Nat)
  | clearpteu (uva : Nat)

-- The kernel stops where a step is an error.
def spaceStep (L : Layout) : Machine (PgDir × Mem) SpaceEvent Unit := fun s e =>
  match e with
  | .allocuvm oldsz newsz =>
    match allocuvm L s.1 oldsz newsz s.2 with
    | .error _ => none
    | .ok (_, d, m) => some ((d, m), ())
  | .deallocuvm oldsz newsz =>
    match deallocuvm L s.1 oldsz newsz s.2 with
    | .error _ => none
    | .ok (_, d, m) => some ((d, m), ())
  | .pgfault sz va =>
    match pgfault L va { sz := sz, pgdir := s.1, kstack := 0, killed := false } s.2 with
    | .error _ => none
    | .ok (x, m) => some ((x.pgdir, m), ())
  | .clearpteu uva =>
    match clearpteu s.1 uva s.2 with
    | .error _ => none
    | .ok d => some ((d, s.2), ())

section

variable {L : Layout} {d d' : PgDir} {m m' : Mem} {e : SpaceEvent} {o : Unit}

theorem spaceStep_trades (hd : d.Wf) (h : spaceStep L (d, m) e = some ((d', m'), o)) : Trades d m d' m' := by
  unfold spaceStep at h
  cases e with
  | allocuvm oldsz newsz =>
    dsimp only at h
    split at h
    . cases h
    . next heq =>
      cases h
      exact (allocuvm_trades hd heq).1
  | deallocuvm oldsz newsz =>
    dsimp only at h
    split at h
    . cases h
    . next heq =>
      cases h
      obtain ⟨Δ, hshrinks⟩ := deallocuvm_shrinks hd heq
      exact .of_shrinks hshrinks
  | pgfault sz va =>
    dsimp only at h
    split at h
    . cases h
    . next heq =>
      cases h
      exact (pgfault_trades hd heq).1
  | clearpteu uva =>
    dsimp only at h
    split at h
    . cases h
    . next heq =>
      cases h
      exact (clearpteu_trades hd heq).2

theorem spaceRun_sound {d0 : PgDir} {m0 : Mem} {es : List SpaceEvent} (hs : m.Sound (Valid L) 0)
    (hsetup : setupkvm L m = .ok (some d0, m0)) (hrun : Machine.run (spaceStep L) (d0, m0) es = some (d, m'))
    : d.Wf ∧ m'.Sound (Valid L) d.frames := by
  have hfree : ∀ p ∈ m.free, Valid L p := fun p hp => hs.valid p (Multiset.mem_add.mpr (.inr hp))
  rcases setupkvm_cases hfree with ⟨-, d1, m1, heq, hwf, hx, -, -⟩ | ⟨-, m1, heq, -⟩
  . rw [heq] at hsetup
    cases hsetup
    apply Machine.run_invariant' (I := fun s => s.1.Wf ∧ s.2.Sound (Valid L) s.1.frames) _ ⟨hwf, hx.sound hs⟩ hrun
    rintro ⟨d, m⟩ e ⟨d', m'⟩ o ⟨hd, hs⟩ hstep
    have htrades := spaceStep_trades hd hstep
    exact ⟨htrades.wf, htrades.xfer.sound hs⟩
  . rw [heq] at hsetup
    cases hsetup

theorem counted_iff {v : Nat} (hs : m.Sound (Valid L) d.frames) (hv : v < UPAGES)
    : Counted d v ↔ (d.pte v).present = true := by
  refine ⟨And.left, fun hpresent => ⟨hpresent, ?_⟩⟩
  apply Valid.ne_zero (L := L)
  exact hs.valid _ (Multiset.mem_add.mpr (.inl (PgDir.addr_mem_frames hv hpresent)))

theorem filter_counted (hs : m.Sound (Valid L) d.frames) {sz : Nat} (hsz : sz ≤ KERNBASE)
    (hbelow : ∀ v < UPAGES, (d.pte v).present = true → v * PGSIZE < sz)
    : ((Finset.range (npages sz)).filter (Counted d)).card = pageCount d := by
  unfold pageCount
  apply congrArg Finset.card
  ext v
  rw [Finset.mem_filter, Finset.mem_filter, Finset.mem_range, Finset.mem_range]
  constructor
  . rintro ⟨hv, hcounted⟩
    exact ⟨Nat.lt_of_lt_of_le hv (npages_le_upages hsz), hcounted.1⟩
  . rintro ⟨hv, hpresent⟩
    exact ⟨lt_npages.mpr (hbelow v hv hpresent), (counted_iff hs hv).mpr hpresent⟩

end

/--
`freevm` gives back what the report says, for every address space that the kernel can build.
-/
theorem freevm_frees_reported {L : Layout} {m m0 m1 : Mem} {d0 d : PgDir} {es : List SpaceEvent} {sz : Nat}
    (hs : m.Sound (Valid L) 0) (hsetup : setupkvm L m = .ok (some d0, m0))
    (hrun : Machine.run (spaceStep L) (d0, m0) es = some (d, m1)) (hsz : sz ≤ KERNBASE)
    (hbelow : ∀ v < UPAGES, (d.pte v).present = true → v * PGSIZE < sz)
    : ∃ m2 count, freevm L d m1 = .ok m2 ∧ countPhysicalPages d sz m1 = .ok count ∧
        m2.free.length = m1.free.length + (pageTableSize d sz + count) := by
  obtain ⟨hd, hs1⟩ := spaceRun_sound hs hsetup hrun
  obtain ⟨m2, hfree, hx⟩ := freevm_eq_ok (L := L) (m := m1) hd fun p hp => hs1.valid p (Multiset.mem_add.mpr (.inl hp))
  refine ⟨m2, _, hfree, countPhysicalPages_eq hd hsz m1, ?_⟩
  have hcard := hx.card
  rw [Multiset.card_zero, Nat.zero_add, card_frames] at hcard
  rw [filter_counted hs1 hsz hbelow, pageTableSize_eq, hcard, Nat.add_comm]

-- Two pages, the lower one a guard page.
theorem freevm_frees_reported_guard
    : ∃ d0 m0 d m1, setupkvm Layout.small Mem.small = .ok (some d0, m0) ∧
        Machine.run (spaceStep Layout.small) (d0, m0) [.allocuvm 0 (2 * PGSIZE), .clearpteu (0 * PGSIZE)]
          = some (d, m1) ∧
        ∃ m2 count, freevm Layout.small d m1 = .ok m2 ∧ countPhysicalPages d (2 * PGSIZE) m1 = .ok count ∧
          m2.free.length = m1.free.length + (pageTableSize d (2 * PGSIZE) + count) := by
  have hend : npages (2 * PGSIZE) = 2 := by decide
  have hcost : spaceCost kernTabs 2 ≤ 200 := by
    rw [spaceCost, kernTabs, card_kernTabs]
    decide
  obtain ⟨d0, m0, d1, m1, hsetup, halloc, hclear, hwithin, -⟩ := guarded_space (by decide) hcost
  have hrun : Machine.run (spaceStep Layout.small) (d0, m0) [.allocuvm 0 (2 * PGSIZE), .clearpteu (0 * PGSIZE)]
      = some (d1.setPte 0 { d1.pte 0 with user := false }, m1) := by
    unfold Machine.run spaceStep
    dsimp only
    rw [halloc]
    dsimp only
    unfold Machine.run
    dsimp only
    rw [hclear]
    rfl
  refine ⟨d0, m0, _, m1, hsetup, hrun, freevm_frees_reported Mem.small_sound hsetup hrun (by decide) ?_⟩
  intro v hv hpresent
  apply lt_npages.mp
  rw [hend]
  by_contra hge
  rw [PgDir.setPte_pte, if_neg (by omega)] at hpresent
  exact hge (hwithin.pages v hv hpresent)

end Xv6.Vm
