import Mathlib.Order.Interval.Set.Basic
import Xv6.Paging.Refine

/-!
`mappages` maps the pages of a range one after the other. It stops after the last page, also when that is the last page
of the address space, or before a page for which there is no page table left.
-/

namespace Xv6.Paging

open Outcome

variable {dirs : Word → Prop} {pgdir a last pa perm va size w : Word} {m m' : Mem} {fuel n v : Nat}

/-- The entry for the page with the number `i` in a range that is mapped from `pa` on. -/
def entry (pa perm : Word) (i : Nat) : Word :=
  pa + addr i ||| perm ||| PTE_P

theorem entry_zero (pa perm : Word) : entry pa perm 0 = pa ||| perm ||| PTE_P := by
  unfold entry addr
  rw [Nat.zero_mul, BitVec.add_zero]

theorem entry_succ (pa perm : Word) (i : Nat) : entry (pa + PGSIZE) perm i = entry pa perm (i + 1) := by
  have hadd : PGSIZE + addr i = addr (i + 1) := by
    have hsize : PGSIZE = BitVec.ofNat 32 4096 := rfl
    unfold addr
    rw [hsize, ← BitVec.ofNat_add, Nat.add_mul, Nat.one_mul, Nat.add_comm]
  unfold entry
  rw [BitVec.add_assoc, hadd]

theorem present_entry (pa perm : Word) (i : Nat) : present (entry pa perm i) = true :=
  present_or _ (by decide)

theorem addr_aligned (i : Nat) : Aligned (addr i) := by
  rw [aligned_iff]
  unfold addr
  rw [BitVec.toNat_ofNat]
  omega

theorem Aligned.add_addr (h : Aligned pa) (i : Nat) : Aligned (pa + addr i) := by
  have hi := addr_aligned i
  rw [aligned_iff] at h hi ⊢
  rw [BitVec.toNat_add]
  omega

-- The page and the permissions of an entry can be told apart again.
theorem entry_parts (hpa : Aligned pa) (hperm : PTE_ADDR perm = 0#32) (i : Nat)
    : PTE_ADDR (entry pa perm i) = pa + addr i ∧ PTE_FLAGS (entry pa perm i) = perm ||| PTE_P := by
  have hflags : PTE_ADDR (perm ||| PTE_P) = 0#32 := by
    have hor : PTE_ADDR (perm ||| PTE_P) = PTE_ADDR perm ||| PTE_ADDR PTE_P := BitVec.and_or_distrib_right
    rw [hor, hperm]
    decide
  unfold entry
  rw [BitVec.or_assoc]
  exact ⟨PTE_ADDR_or (hpa.add_addr i) hflags, PTE_FLAGS_or (hpa.add_addr i) hflags⟩

-- One round of the loop.
theorem mappagesLoop_step (h : Wf dirs m) (hd : dirs pgdir) (ha : a.toNat = v * 4096)
    (habsent : translate m pgdir (addr v) = none)
    : (m.free = [] ∧ ∀ fuel, mappagesLoop pgdir last perm (fuel + 1) a pa m = some (.ok (-1, m))) ∨
      ∃ m', Maps dirs pgdir {v} m m' ∧ Holds m' pgdir v (entry pa perm 0) ∧
        ∀ fuel, mappagesLoop pgdir last perm (fuel + 1) a pa m =
          if a = last then some (.ok (0, m'))
          else mappagesLoop pgdir last perm fuel (a + PGSIZE) (pa + PGSIZE) m' := by
  have hpage : addr v = a := by
    unfold addr
    rw [← ha, BitVec.ofNat_toNat, BitVec.setWidth_eq]
  have hv : a.toNat / 4096 = v := by rw [ha, Nat.mul_div_cancel _ (by decide)]
  rw [hpage] at habsent
  rcases walkpgdir_spec h hd a with ⟨hwalk, hfree⟩ | ⟨m1, hwalk, hmaps, hpresent⟩
  . refine .inl ⟨hfree, fun fuel => ?_⟩
    unfold mappagesLoop
    rw [hwalk]
  . have hnone : ¬m1.data (PTE_ADDR (m1.data pgdir (PDX a))) (PTX a) &&& PTE_P ≠ 0 := by
      have htranslate := hmaps.translate (Set.notMem_empty (a.toNat / 4096))
      rw [habsent] at htranslate
      unfold translate at htranslate
      rw [if_pos hpresent] at htranslate
      intro hne
      rw [if_pos (present_iff.mpr hne)] at htranslate
      cases htranslate
    have hindex : 1024 * PDX a + PTX a = v := by
      rw [PDX_eq, PTX_eq, hv]
      exact Nat.div_add_mod _ _
    have hstore := hmaps.wf.store (j := PTX a) hd (PDX_lt a) hpresent (pa ||| perm ||| PTE_P)
    rw [hindex] at hstore
    have htrans := hmaps.trans hstore
    rw [Set.empty_union] at htrans
    refine .inr ⟨_, htrans, ?_, fun fuel => ?_⟩
    . have hdir := (hstore.old (PDX a) (PDX_lt a) hpresent).1
      unfold Holds
      rw [← hv, ← PDX_eq, ← PTX_eq, hdir, entry_zero]
      refine ⟨hpresent, ?_⟩
      rw [store_data, if_pos rfl, Function.update_self]
    . rw [mappagesLoop, hwalk]
      dsimp only
      rw [if_neg hnone]

-- What the loop returned, it returns after any larger number of rounds.
theorem mappagesLoop_mono {r : Except String (Int × Mem)}
    (h : mappagesLoop pgdir last perm fuel a pa m = some r)
    : mappagesLoop pgdir last perm (fuel + 1) a pa m = some r := by
  induction fuel generalizing a pa m with
  | zero => cases h
  | succ fuel ih =>
    rw [mappagesLoop] at h ⊢
    split
    . next hwalk =>
      rw [hwalk] at h
      exact h
    . next hwalk =>
      rw [hwalk] at h
      dsimp only at h ⊢
      split
      . next hpresent =>
        rw [if_pos hpresent] at h
        exact h
      . next hpresent =>
        rw [if_neg hpresent] at h
        split
        . next hlast =>
          rw [if_pos hlast] at h
          exact h
        . next hlast =>
          rw [if_neg hlast] at h
          exact ih h

theorem mappagesLoop_le {r : Except String (Int × Mem)} {fuel' : Nat} (hle : fuel ≤ fuel')
    (h : mappagesLoop pgdir last perm fuel a pa m = some r)
    : mappagesLoop pgdir last perm fuel' a pa m = some r := by
  induction hle with
  | refl => exact h
  | step hle ih => exact mappagesLoop_mono ih

theorem add_PGSIZE_toNat (ha : a.toNat = v * 4096) (hv : v + 1 < 2 ^ 20) : (a + PGSIZE).toNat = (v + 1) * 4096 := by
  have hsize : PGSIZE.toNat = 4096 := rfl
  rw [BitVec.toNat_add, hsize, ha]
  omega

-- The induction is on the number of pages after the current one.
theorem mappagesLoop_spec (pa perm : Word) (h : Wf dirs m) (hd : dirs pgdir) (ha : a.toNat = v * 4096)
    (hlast : last.toNat = (v + n) * 4096) (hv : v + n < 2 ^ 20)
    (habsent : ∀ k, k ≤ n → translate m pgdir (addr (v + k)) = none)
    : ∃ r m' k, (∀ fuel, mappagesLoop pgdir last perm (n + 1 + fuel) a pa m = some (.ok (r, m'))) ∧
      Maps dirs pgdir (Set.Ico v (v + k)) m m' ∧ (∀ i, i < k → Holds m' pgdir (v + i) (entry pa perm i)) ∧
      (r = 0 ∧ k = n + 1 ∨ r = -1 ∧ k < n + 1 ∧ m'.free = []) := by
  induction n generalizing a pa m v with
  | zero =>
    have heq : a = last := BitVec.eq_of_toNat_eq (ha.trans hlast.symm)
    rcases mappagesLoop_step h hd ha (habsent 0 (Nat.le_refl 0)) with ⟨hfree, hstop⟩ | ⟨m', hmaps, hholds, hnext⟩
    . exact ⟨-1, m, 0, fun fuel => by rw [Nat.add_comm, hstop], .refl h, fun i hi => absurd hi (Nat.not_lt_zero i),
        .inr ⟨rfl, Nat.zero_lt_succ 0, hfree⟩⟩
    . refine ⟨0, m', 1, fun fuel => by rw [Nat.add_comm, hnext, if_pos heq], hmaps.mono ?_, fun i hi => ?_, .inl ⟨rfl, rfl⟩⟩
      . rw [Set.singleton_subset_iff]
        exact ⟨Nat.le_refl v, Nat.lt_succ_self v⟩
      . rw [Nat.lt_one_iff.mp hi]
        exact hholds
  | succ n ih =>
    have hne : a ≠ last := by
      rintro rfl
      omega
    rcases mappagesLoop_step h hd ha (habsent 0 (Nat.zero_le _)) with ⟨hfree, hstop⟩ | ⟨m1, hmaps, hholds, hnext⟩
    . exact ⟨-1, m, 0, fun fuel => by rw [Nat.add_comm, ← Nat.add_assoc, hstop], .refl h,
        fun i hi => absurd hi (Nat.not_lt_zero i), .inr ⟨rfl, Nat.zero_lt_succ _, hfree⟩⟩
    . have habsent' : ∀ k, k ≤ n → translate m1 pgdir (addr (v + 1 + k)) = none := by
        intro k hk
        have hnum : (addr (v + 1 + k)).toNat / 4096 = v + 1 + k := by
          rw [addr_toNat (by omega), Nat.mul_div_cancel _ (by decide)]
        rw [hmaps.translate, Nat.add_assoc, Nat.add_comm 1 k]
        . exact habsent (k + 1) (by omega)
        . rw [hnum, Set.mem_singleton_iff]
          omega
      have hlast' : last.toNat = (v + 1 + n) * 4096 := by rw [hlast, Nat.add_assoc, Nat.add_comm 1 n]
      have ha' : (a + PGSIZE).toNat = (v + 1) * 4096 := add_PGSIZE_toNat ha (by omega)
      obtain ⟨r, m', k, hloop, hmaps', hholds', hr⟩ := ih (pa + PGSIZE) hmaps.wf ha' hlast' (by omega)
        habsent'
      refine ⟨r, m', k + 1, fun fuel => ?_, (hmaps.trans hmaps').mono ?_, fun i hi => ?_, ?_⟩
      . rw [show n + 1 + 1 + fuel = (n + 1 + fuel) + 1 by omega, hnext, if_neg hne, hloop]
      . rintro u (rfl | hu)
        . exact ⟨Nat.le_refl u, by omega⟩
        . exact ⟨by have := hu.1; omega, by have := hu.2; omega⟩
      . cases i with
        | zero =>
          refine hmaps'.holds (by omega) (fun hmem => ?_) hholds
          exact Nat.not_succ_le_self v hmem.1
        | succ i =>
          rw [← entry_succ, Nat.add_comm i 1, ← Nat.add_assoc]
          exact hholds' i (by omega)
      . rcases hr with ⟨hr, hk⟩ | ⟨hr, hk, hfree⟩
        . exact .inl ⟨hr, by rw [hk]⟩
        . exact .inr ⟨hr, Nat.succ_lt_succ hk, hfree⟩

/-- The number of pages that the range has a part of. -/
def pages (va size : Word) : Nat :=
  (va.toNat + size.toNat - 1) / 4096 - va.toNat / 4096 + 1

/-- The address `a` is on one of the `k` pages from the page of `va` on. -/
def inPages (va : Word) (k : Nat) (a : Word) : Prop :=
  va.toNat / 4096 ≤ a.toNat / 4096 ∧ a.toNat / 4096 < va.toNat / 4096 + k

instance (va : Word) (k : Nat) (a : Word) : Decidable (inPages va k a) :=
  inferInstanceAs (Decidable (_ ∧ _))

/-- A flat map from addresses to entries in which `k` pages from the page of `va` on are mapped from `pa` on. -/
def mapPages (f : Word → Option Word) (va : Word) (k : Nat) (pa perm a : Word) : Option Word :=
  if inPages va k a then some (entry pa perm (a.toNat / 4096 - va.toNat / 4096)) else f a

-- The page table for the entry `i` of `pgdir` was free, nobody else uses it, and it only has entries for pages in `S`.
structure NewTab (dirs : Word → Prop) (pgdir : Word) (i : Nat) (S : Set Nat) (m m' : Mem) : Prop where
  free : PTE_ADDR (m'.data pgdir i) ∈ m.free
  taken : PTE_ADDR (m'.data pgdir i) ∉ m'.free
  zero : ∀ j, j < 1024 → 1024 * i + j ∉ S → m'.data (PTE_ADDR (m'.data pgdir i)) j = 0
  own : ∀ d, dirs d → ∀ i', i' < 1024 → present (m'.data d i') = true →
    PTE_ADDR (m'.data d i') = PTE_ADDR (m'.data pgdir i) → d = pgdir ∧ i' = i

theorem Maps.newTab {S : Set Nat} {i : Nat} (h : Maps dirs pgdir S m m') (hd : dirs pgdir) (hi : i < 1024)
    (habsent : present (m.data pgdir i) = false) (hpresent : present (m'.data pgdir i) = true)
    : NewTab dirs pgdir i S m m' := by
  rcases h.new i hi habsent with hsame | ⟨-, hfree, hzero⟩
  . rw [hsame, habsent] at hpresent
    cases hpresent
  . exact {
      free := hfree
      taken := h.wf.tabFree pgdir hd i hi hpresent
      zero := hzero
      own := fun d hd' i' hi' hp heq => h.wf.tabInj d pgdir hd' hd i' i hi' hi hp hpresent heq
    }

theorem end_toNat (hsize : size ≠ 0) (htop : va.toNat + size.toNat ≤ 2 ^ 32)
    : (va + size - 1).toNat = va.toNat + size.toNat - 1 := by
  have hpos : 0 < size.toNat := Nat.pos_of_ne_zero fun hzero => hsize (BitVec.eq_of_toNat_eq hzero)
  have hone : (1 : Word).toNat = 1 := rfl
  rw [BitVec.toNat_sub, BitVec.toNat_add, hone]
  omega

-- The run is long enough for all pages, and the pages that it maps are the first ones of the range.
theorem mappages_maps (pa perm : Word) (h : Wf dirs m) (hd : dirs pgdir) (hsize : size ≠ 0) (htop : va.toNat + size.toNat ≤ 2 ^ 32)
    (habsent : ∀ a, inPages va (pages va size) a → translate m pgdir a = none)
    : ∃ r m' k, Settles (mappages pgdir va size pa perm m) (.ok (r, m')) ∧
      Maps dirs pgdir (Set.Ico (va.toNat / 4096) (va.toNat / 4096 + k)) m m' ∧
      (∀ i, i < k → Holds m' pgdir (va.toNat / 4096 + i) (entry pa perm i)) ∧
      (r = 0 ∧ k = pages va size ∨ r = -1 ∧ k < pages va size ∧ m'.free = []) := by
  have hpos : 0 < size.toNat := Nat.pos_of_ne_zero fun hzero => hsize (BitVec.eq_of_toNat_eq hzero)
  obtain ⟨n, hn⟩ : ∃ n, va.toNat / 4096 + n = (va.toNat + size.toNat - 1) / 4096 :=
    ⟨(va.toNat + size.toNat - 1) / 4096 - va.toNat / 4096, by omega⟩
  have hpages : pages va size = n + 1 := by
    unfold pages
    omega
  have hlast : (PGROUNDDOWN (va + size - 1)).toNat = (va.toNat / 4096 + n) * 4096 := by
    rw [PGROUNDDOWN_toNat, end_toNat hsize htop, hn]
  have habsent' : ∀ k, k ≤ n → translate m pgdir (addr (va.toNat / 4096 + k)) = none := by
    intro k hk
    apply habsent
    unfold inPages
    rw [addr_toNat (by omega), Nat.mul_div_cancel _ (by decide), hpages]
    omega
  obtain ⟨r, m', k, hloop, hmaps, hholds, hr⟩ := mappagesLoop_spec pa perm h hd (PGROUNDDOWN_toNat va) hlast
    (by omega) habsent'
  have hsettles : Settles (mappages pgdir va size pa perm m) (.ok (r, m')) := by
    constructor
    . intro fuel b hb
      have hmore := mappagesLoop_le (Nat.le_add_left fuel (n + 1)) hb
      rw [hloop] at hmore
      exact (Option.some.inj hmore).symm
    . refine ⟨n + 1, fun fuel hfuel => ?_⟩
      obtain ⟨c, rfl⟩ := Nat.exists_eq_add_of_le hfuel
      exact hloop c
  rw [hpages]
  exact ⟨r, m', k, hsettles, hmaps, hholds, hr⟩

theorem Maps.mapPages {k : Nat} (h : Maps dirs pgdir (Set.Ico (va.toNat / 4096) (va.toNat / 4096 + k)) m m')
    (hholds : ∀ i, i < k → Holds m' pgdir (va.toNat / 4096 + i) (entry pa perm i)) (a : Word)
    : Paging.translate m' pgdir a = Paging.mapPages (Paging.translate m pgdir) va k pa perm a := by
  unfold Paging.mapPages
  split
  . next hin =>
    obtain ⟨i, hi⟩ := Nat.exists_eq_add_of_le hin.1
    have hlt := hin.2
    have hsub : a.toNat / 4096 - va.toNat / 4096 = i := by omega
    rw [hsub]
    apply translate_of_holds
    . rw [hi]
      exact hholds i (by omega)
    . exact present_entry pa perm i
  . next hout =>
    exact h.translate hout

/-- `mappages` updates the flat map of its page directory, and leaves those of the others alone. -/
theorem mappages_refines (pa perm : Word) (h : Wf dirs m) (hd : dirs pgdir) (hsize : size ≠ 0)
    (htop : va.toNat + size.toNat ≤ 2 ^ 32) (habsent : ∀ a, inPages va (pages va size) a → translate m pgdir a = none)
    : ∃ r m' k, Settles (mappages pgdir va size pa perm m) (.ok (r, m')) ∧
      (r = 0 ∧ k = pages va size ∨ r = -1 ∧ k < pages va size ∧ m'.free = []) ∧
      translate m' pgdir = mapPages (translate m pgdir) va k pa perm ∧
      (Aligned pa → PTE_ADDR perm = 0 → ∀ i, PTE_ADDR (entry pa perm i) = pa + addr i ∧
        PTE_FLAGS (entry pa perm i) = perm ||| PTE_P) ∧
      (∀ d, dirs d → d ≠ pgdir → translate m' d = translate m d) ∧
      (∀ i, i < 1024 → present (m.data pgdir i) = false → present (m'.data pgdir i) = true →
        NewTab dirs pgdir i (Set.Ico (va.toNat / 4096) (va.toNat / 4096 + k)) m m') ∧
      Wf dirs m' := by
  obtain ⟨r, m', k, hsettles, hmaps, hholds, hr⟩ := mappages_maps pa perm h hd hsize htop habsent
  refine ⟨r, m', k, hsettles, hr, ?_, fun hpa hperm => entry_parts hpa hperm, ?_, ?_, hmaps.wf⟩
  . funext a
    exact hmaps.mapPages hholds a
  . intro d hd' hne
    funext a
    exact hmaps.translate_other hd' hne a
  . intro i hi
    exact hmaps.newTab hd hi

-- Four pages of the devices, two of them below the end of a page table and two above it.
theorem mappages_refines_devices
    : let m : Mem := ⟨[0x2000, 0x3000, 0x4000, 0x5000, 0x6000, 0x7000, 0x8000, 0x9000], fun _ _ => 0⟩
      ∃ m', Settles (mappages 0x1000 0xFE3FE000 0x4000 0xFE3FE000 PTE_W m) (.ok (0, m')) ∧
        translate m' 0x1000 = mapPages (translate m 0x1000) 0xFE3FE000 4 0xFE3FE000 PTE_W := by
  intro m
  have hwf : Wf (fun d => d = 0x1000 ∨ False) m := by
    have haligned : ∀ p ∈ ([0x1000, 0x2000, 0x3000, 0x4000, 0x5000, 0x6000, 0x7000, 0x8000, 0x9000] : List Word),
        Aligned p := by
      simp [Aligned]
    have hempty : Wf (fun _ => False)
        (⟨[0x1000, 0x2000, 0x3000, 0x4000, 0x5000, 0x6000, 0x7000, 0x8000, 0x9000], fun _ _ => 0⟩ : Mem) :=
      .empty haligned (by simp)
    have htake : (⟨[0x1000, 0x2000, 0x3000, 0x4000, 0x5000, 0x6000, 0x7000, 0x8000, 0x9000], fun _ _ => 0⟩ : Mem).take =
        some (0x1000, m) := rfl
    exact (hempty.newDir htake).congr rfl fun d _ => (ite_self _).symm
  have hsize : (0x4000 : Word) ≠ 0 := by decide
  have htop : (0xFE3FE000 : Word).toNat + (0x4000 : Word).toNat ≤ 2 ^ 32 := by decide
  have habsent : ∀ a, inPages 0xFE3FE000 (pages 0xFE3FE000 0x4000) a → translate m 0x1000 a = none := by
    intro a _
    exact if_neg (show ¬present 0 = true by decide)
  have hzero : ∃ m', mappages 0x1000 0xFE3FE000 0x4000 0xFE3FE000 PTE_W m 4 = some (.ok (0, m')) := by
    simp [m, mappages, mappagesLoop, walkpgdir, Mem.store, Pool.put, Pool.take, PDX, PTX, PTE_ADDR, PGROUNDDOWN, PGSIZE,
      PTE_P, PTE_W, PTE_U]
  obtain ⟨r, m', k, hsettles, hr, htranslate, -⟩ := mappages_refines 0xFE3FE000 PTE_W hwf (.inl rfl) hsize htop habsent
  obtain ⟨m₁, hm₁⟩ := hzero
  cases hsettles.only 4 _ hm₁
  obtain ⟨-, rfl⟩ | ⟨hfail, -⟩ := hr
  . exact ⟨_, hsettles, htranslate⟩
  . cases hfail

end Xv6.Paging
