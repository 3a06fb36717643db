import Xv6.Vm.Lemmas.Fault
import Xv6.Vm.Lemmas.Room

/-!
What a program sees of its address space: a size, the contents of all pages up to there, and the pages it may
not touch. A page that is not mapped yet counts as one full of zeros. `sbrk`, `mmap`, loads, stores and page
faults are followed on this abstract memory, where page faults have no effect at all.
-/

namespace Xv6.Vm

structure Flat where
  sz : Nat
  page : Nat → Page
  guard : Nat → Bool

namespace Flat

def byte (f : Flat) (va : Nat) : UInt8 :=
  f.page (va / PGSIZE) (va % PGSIZE)

def store (f : Flat) (va : Nat) (b : UInt8) : Flat :=
  { f with page := fun v o => if v = va / PGSIZE ∧ o = va % PGSIZE then b else f.page v o }

-- Only the pages below `n` are kept.
def cut (f : Flat) (n : Nat) : Flat :=
  { f with
      page := fun v => if v < n then f.page v else fun _ => 0
      guard := fun v => decide (v < n) && f.guard v }

/--
`sbrk`, with two peculiarities: shrinking to nothing fails after the pages are gone, and a size that wraps
around is ignored.
-/
def sbrk (f : Flat) (n : Word) : Word × Flat :=
  if n.toInt > 0 then
    (.ofNat 32 f.sz, { f with sz := f.sz + n.toNat })
  else if n.toInt < 0 then
    if uint (f.sz + n.toNat) ≥ f.sz then
      if f.sz = 0 then (-1, f) else (.ofNat 32 f.sz, f)
    else if uint (f.sz + n.toNat) = 0 then
      (-1, f.cut 0)
    else
      (.ofNat 32 f.sz, { f.cut (npages (uint (f.sz + n.toNat))) with sz := uint (f.sz + n.toNat) })
  else
    (.ofNat 32 f.sz, f)

def mmap (f : Flat) (n : Word) : Word × Flat :=
  (.ofNat 32 f.sz, { f with sz := f.sz + n.toNat })

theorem sbrk_eq_mmap (f : Flat) {n : Word} (h : mmapAccepts n) : f.sbrk n = f.mmap n := by
  unfold sbrk mmap
  rw [if_pos]
  unfold mmapAccepts at h
  omega

end Flat

def Proc.flat (x : Proc) (m : Mem) : Flat where
  sz := x.sz
  page v :=
    if v < UPAGES ∧ (x.pgdir.pte v).present then m.data (x.pgdir.pte v).addr else fun _ => 0
  guard v := decide (v < UPAGES) && (x.pgdir.pte v).present && !(x.pgdir.pte v).user

section

variable {L : Layout} {x x' : Proc} {d : PgDir} {m m' : Mem} {va : Nat}

theorem flat_grows {V : Set Nat} {Δ : Multiset Ppn} (hs : m.Sound (Valid L) x.pgdir.frames)
    (hgrows : Grows x.pgdir m d m' V Δ) (hfresh : Fresh d m' V)
    (habsent : ∀ v ∈ V, (x.pgdir.pte v).present = false) (sz : Nat)
    : Proc.flat { x with pgdir := d, sz := sz } m' = { x.flat m with sz := sz } := by
  unfold Proc.flat
  dsimp only
  congr 1
  . funext v
    by_cases hv : v ∈ V
    . obtain ⟨p, hpte, -, hdata⟩ := hfresh v hv
      simp [habsent v hv, hpte, hdata]
    . rw [hgrows.pte v hv]
      split
      . next hpresent =>
        apply hgrows.data_eq
        exact hs.notMem_free (PgDir.addr_mem_frames hpresent.1 hpresent.2)
      . rfl
  . funext v
    by_cases hv : v ∈ V
    . obtain ⟨p, hpte, -, hdata⟩ := hfresh v hv
      simp [habsent v hv, hpte]
    . rw [hgrows.pte v hv]

theorem flat_cut {Δ : Multiset Ppn} {n : Nat} (hs : m.Sound (Valid L) x.pgdir.frames) (htidy : Tidy x)
    (hshrinks : Shrinks x.pgdir m (x.pgdir.clear n (npages x.sz)) m' Δ) (sz : Nat)
    : Proc.flat { x with pgdir := x.pgdir.clear n (npages x.sz), sz := sz } m'
        =
      { (x.flat m).cut n with sz := sz } := by
  have hcases : ∀ v < UPAGES, (v < n ∧ (x.pgdir.clear n (npages x.sz)).pte v = x.pgdir.pte v) ∨
      (¬ v < n ∧ ((x.pgdir.clear n (npages x.sz)).pte v).present = false) := by
    intro v hv
    rw [PgDir.clear_pte]
    by_cases hlt : v < n
    . rw [if_neg (by omega)]
      exact .inl ⟨hlt, rfl⟩
    . right
      refine ⟨hlt, ?_⟩
      split
      . rfl
      . next hout =>
        by_contra hpresent
        have := htidy v hv (by simpa using hpresent)
        omega
  unfold Proc.flat Flat.cut
  dsimp only
  congr 1
  . funext v
    by_cases hv : v < UPAGES
    . rcases hcases v hv with ⟨hlt, heq⟩ | ⟨hlt, habsent⟩
      . rw [heq, if_pos hlt]
        split
        . next hpresent =>
          -- the page stays, so it is not among those that are freed
          apply hshrinks.xfer.data
          have hmem : (x.pgdir.pte v).addr ∈ (x.pgdir.clear n (npages x.sz)).frames := by
            have := PgDir.addr_mem_frames hv (heq ▸ hpresent.2)
            rwa [heq] at this
          apply Pool.Sound.notMem_of_add (P := Valid L) _ hmem
          rw [hshrinks.frames]
          exact hs
        . rfl
      . rw [if_neg hlt, if_neg (by simp [habsent])]
    . simp [hv]
  . funext v
    by_cases hv : v < UPAGES
    . rcases hcases v hv with ⟨hlt, heq⟩ | ⟨hlt, habsent⟩
      . simp [heq, hlt]
      . simp [habsent, hlt]
    . simp [hv]

theorem store_data (b : UInt8) (p : Ppn) (o : Nat)
    : (x.store va b m).data p o
        =
      if p = (x.pgdir.pte (va / PGSIZE)).addr ∧ o = va % PGSIZE then b else m.data p o := by
  unfold Proc.store Mem.write Pool.put
  dsimp only
  by_cases hp : p = (x.pgdir.pte (va / PGSIZE)).addr
  . rw [if_pos hp]
    by_cases ho : o = va % PGSIZE
    . simp [hp, ho]
    . have hgetD : va % PGSIZE ≤ o → [b].getD (o - va % PGSIZE) (m.data p o) = m.data p o := by
        intro hle
        rw [List.getD_eq_getElem?_getD, List.getElem?_eq_none, Option.getD_none]
        simp only [List.length_singleton]
        omega
      rw [← hp]
      simp only [ho, and_false, ↓reduceIte]
      split
      . next hle => exact hgetD hle
      . rfl
  . rw [if_neg hp, if_neg (fun h => hp h.1)]

theorem flat_store {b : UInt8} (hd : x.pgdir.Wf) (hs : m.Sound (Valid L) x.pgdir.frames)
    (h : x.accessible va = true)
    : x.flat (x.store va b m) = (x.flat m).store va b := by
  obtain ⟨hu, hpresent⟩ := lt_upages_of_accessible hd h
  have hinj : ∀ v < UPAGES, (x.pgdir.pte v).present = true →
      (x.pgdir.pte v).addr = (x.pgdir.pte (va / PGSIZE)).addr → v = va / PGSIZE := by
    intro v hv hpresent'
    exact PgDir.addr_inj (Multiset.nodup_add.mp hs.nodup).1 hv hu hpresent' hpresent
  unfold Proc.flat Flat.store
  dsimp only
  congr 1
  funext v o
  by_cases hp : v < UPAGES ∧ (x.pgdir.pte v).present = true
  . rw [if_pos hp, if_pos hp, store_data]
    have hiff : (x.pgdir.pte v).addr = (x.pgdir.pte (va / PGSIZE)).addr ↔ v = va / PGSIZE :=
      ⟨hinj v hp.1 hp.2, fun heq => by rw [heq]⟩
    simp only [hiff]
  . rw [if_neg hp, if_neg hp, if_neg]
    rintro ⟨rfl, -⟩
    exact hp ⟨hu, hpresent⟩

theorem flat_byte (hd : x.pgdir.Wf) (h : x.accessible va = true) : x.byte m va = (x.flat m).byte va := by
  obtain ⟨hu, hpresent⟩ := lt_upages_of_accessible hd h
  unfold Flat.byte Proc.flat Proc.byte
  dsimp only
  rw [if_pos ⟨hu, hpresent⟩]

theorem absent_of_guard (hu : va / PGSIZE < UPAGES) (hguard : (x.flat m).guard (va / PGSIZE) = false)
    (h : x.accessible va = false)
    : Absent x va := by
  unfold Absent
  unfold Proc.flat at hguard
  unfold Proc.accessible at h
  cases hpresent : (x.pgdir.pte (va / PGSIZE)).present with
  | false => rfl
  | true => simp_all

-- The process may grow to `n` pages.
structure Roomy (K : Finset Nat) (n : Nat) (x : Proc) (m : Mem) : Prop where
  within : Within K x.pgdir n
  tidy : Tidy x
  room : spaceCost K n ≤ x.pgdir.frames.card + m.free.length

theorem Roomy.trades {K : Finset Nat} {n : Nat} (h : Roomy K n x m) (x' : Proc) (htrades : Trades x.pgdir m x'.pgdir m')
    (hwithin : Within K x'.pgdir n) (htidy : Tidy x')
    : Roomy K n x' m' where
  within := hwithin
  tidy := htidy
  room := by
    rw [htrades.xfer.card]
    exact h.room

variable {K : Finset Nat} {n : Nat}

theorem growproc_grows {k : Word} (h : Roomy K n x m) (hs : m.Sound (Valid L) x.pgdir.frames)
    (hk : k.toInt > 0) (hsz : x.sz + k.toNat < KERNBASE) (hn : npages (x.sz + k.toNat) ≤ n)
    : ∃ x' m', growproc L k x m = .ok (true, x', m') ∧ Roomy K n x' m' ∧
        x'.flat m' = { x.flat m with sz := x.sz + k.toNat } := by
  have hnewsz : uint (x.sz + k.toNat) = x.sz + k.toNat := by
    apply uint_eq_self
    unfold KERNBASE at hsz
    omega
  have hpos : 0 < k.toNat := by
    have := BitVec.toInt_eq_toNat_cond k
    split at this
    . omega
    . have := k.isLt
      omega
  have hmono := npages_mono (Nat.le_add_right x.sz k.toNat)
  have habsent : ∀ w ∈ Set.Ico (npages x.sz) (npages (x.sz + k.toNat)), (x.pgdir.pte w).present = false := by
    intro w hw
    rw [Set.mem_Ico] at hw
    by_contra hpresent
    have hu := npages_le_upages (Nat.le_of_lt hsz)
    have := h.tidy w (by omega) (by simpa using hpresent)
    omega
  obtain ⟨d, m', Δ, halloc, hgrows, hfresh⟩ := allocuvm_eq_ok (L := L) h.within hs h.room
    (Nat.le_add_right _ _) hsz hn habsent
  have hgrow : growproc L k x m = .ok (true, { x with sz := x.sz + k.toNat, pgdir := d }, m') := by
    unfold growproc
    rw [if_pos hk, hnewsz, halloc]
    dsimp only
    rw [if_neg (by omega)]
  refine ⟨_, m', hgrow, ?_, flat_grows hs hgrows hfresh habsent _⟩
  have htidy := (growproc_trades h.within.wf hgrow).2.2.2 (by omega) h.tidy
  refine h.trades { x with sz := x.sz + k.toNat, pgdir := d } (.of_grows hgrows) ?_ htidy
  apply h.within.grows hgrows
  intro w hw
  rw [Set.mem_Ico] at hw
  omega

theorem growproc_shrinks {k : Word} (h : Roomy K n x m) (hs : m.Sound (Valid L) x.pgdir.frames)
    (hk : k.toInt < 0) (hsz : x.sz ≤ KERNBASE) (hlt : uint (x.sz + k.toNat) < x.sz)
    : ∃ x' m', growproc L k x m = .ok (uint (x.sz + k.toNat) ≠ 0, x', m') ∧ Roomy K n x' m' ∧
        x'.flat m' = { (x.flat m).cut (npages (uint (x.sz + k.toNat))) with
          sz := if uint (x.sz + k.toNat) = 0 then x.sz else uint (x.sz + k.toNat) } := by
  have hvalid : ∀ w < UPAGES, (x.pgdir.pte w).present = true → Valid L (x.pgdir.pte w).addr :=
    fun w hw hpresent => hs.valid _ (Multiset.mem_add.mpr (.inl (PgDir.addr_mem_frames hw hpresent)))
  obtain ⟨m', Δ, hdealloc, hshrinks⟩ := deallocuvm_eq_ok (L := L) (m := m) h.within.wf hsz hlt hvalid
  have hgrow : growproc L k x m = .ok (uint (x.sz + k.toNat) ≠ 0,
      { x with
          sz := if uint (x.sz + k.toNat) = 0 then x.sz else uint (x.sz + k.toNat)
          pgdir := x.pgdir.clear (npages (uint (x.sz + k.toNat))) (npages x.sz) }, m') := by
    unfold growproc
    rw [if_neg (by omega), if_pos hk, hdealloc]
    dsimp only
    split
    . next hzero => simp [hzero]
    . next hzero => simp [hzero]
  refine ⟨_, m', hgrow, ?_, flat_cut hs h.tidy hshrinks _⟩
  have htidy := (growproc_trades h.within.wf hgrow).2.2.2 hsz h.tidy
  exact h.trades { x with
      sz := if uint (x.sz + k.toNat) = 0 then x.sz else uint (x.sz + k.toNat)
      pgdir := x.pgdir.clear (npages (uint (x.sz + k.toNat))) (npages x.sz) }
    (.of_shrinks hshrinks) (h.within.shrinks hshrinks) htidy

theorem sysSbrk_flat {k : Word} (h : Roomy K n x m) (hs : m.Sound (Valid L) x.pgdir.frames)
    (hsz : x.sz < KERNBASE)
    (hgrow : k.toInt > 0 → x.sz + k.toNat < KERNBASE ∧ npages (x.sz + k.toNat) ≤ n)
    : ∃ x' m', sysSbrk L k x m = .ok (((x.flat m).sbrk k).1, x', m') ∧ Roomy K n x' m' ∧
        x'.flat m' = ((x.flat m).sbrk k).2 := by
  have hflatsz : (x.flat m).sz = x.sz := rfl
  unfold sysSbrk Flat.sbrk
  dsimp only
  rw [hflatsz]
  by_cases hpos : k.toInt > 0
  . obtain ⟨x', m', heq, hroomy, hflat⟩ := growproc_grows h hs hpos (hgrow hpos).1 (hgrow hpos).2
    rw [if_pos hpos, heq]
    exact ⟨x', m', rfl, hroomy, hflat⟩
  . rw [if_neg hpos]
    by_cases hneg : k.toInt < 0
    . rw [if_pos hneg]
      by_cases hge : uint (x.sz + k.toNat) ≥ x.sz
      . have heq : growproc L k x m = .ok (x.sz ≠ 0, x, m) := by
          unfold growproc deallocuvm
          rw [if_neg hpos, if_pos hneg, if_pos hge]
          dsimp only
          by_cases hzero : x.sz = 0
          . have hfalse : decide (x.sz ≠ 0) = false := by simp [hzero]
            rw [if_pos hzero, hfalse]
          . have htrue : decide (x.sz ≠ 0) = true := by simp [hzero]
            rw [if_neg hzero, htrue]
        rw [heq, if_pos hge]
        by_cases hzero : x.sz = 0
        . exact ⟨x, m, by simp [hzero], h, by rw [if_pos hzero]⟩
        . exact ⟨x, m, by simp [hzero], h, by rw [if_neg hzero]⟩
      . obtain ⟨x', m', heq, hroomy, hflat⟩ := growproc_shrinks h hs hneg (Nat.le_of_lt hsz) (Nat.not_le.mp hge)
        rw [heq, if_neg hge]
        by_cases hzero : uint (x.sz + k.toNat) = 0
        . refine ⟨x', m', by simp [hzero], hroomy, ?_⟩
          rw [hflat, hzero]
          rfl
        . refine ⟨x', m', by simp [hzero], hroomy, ?_⟩
          rw [hflat, if_neg hzero, if_neg hzero]
    . have heq : growproc L k x m = .ok (true, x, m) := by
        unfold growproc
        rw [if_neg hpos, if_neg hneg]
      rw [if_neg hneg, heq]
      exact ⟨x, m, rfl, h, rfl⟩

theorem pgfault_flat (h : Roomy K n x m) (hs : m.Sound (Valid L) x.pgdir.frames) (hsz : x.sz < KERNBASE - PGSIZE)
    (hn : npages x.sz ≤ n) (hva : va < x.sz) (habsent : Absent x va)
    : ∃ x' m', pgfault L va x m = .ok (x', m') ∧ Roomy K n x' m' ∧ x'.flat m' = x.flat m ∧
        x'.accessible va = true := by
  have hv : va / PGSIZE < npages x.sz := by
    rw [lt_npages]
    unfold PGSIZE
    omega
  have hr : InReach x va := by
    refine ⟨hva, ?_⟩
    unfold KERNBASE at hsz
    unfold UPAGES KERNBASE
    unfold PGSIZE at *
    omega
  have hsz32 : x.sz < 2 ^ 32 := by
    unfold KERNBASE at hsz
    omega
  have hroom : Room x.pgdir m (va / PGSIZE) := h.within.room h.room (Nat.lt_of_lt_of_le hv hn) habsent
  cases pgfault_cases h.within.wf hs hsz32 va with
  | out hout heq => exact absurd hr hout
  | failed _ _ hroom' m1 heq => exact absurd hroom hroom'
  | dropped _ hpresent => exact absurd habsent hpresent
  | remap _ hpresent => exact absurd habsent hpresent
  | served _ _ _ d m1 Δ heq hgrows hfresh =>
    refine ⟨_, m1, heq, ?_, ?_, ?_⟩
    . have htidy := (pgfault_trades h.within.wf heq).2.2 (by omega) h.tidy
      refine h.trades { x with pgdir := d } (.of_grows hgrows) ?_ htidy
      apply h.within.grows hgrows
      intro w hw
      rw [Set.mem_singleton_iff] at hw
      rw [hw]
      exact Nat.lt_of_lt_of_le hv hn
    . apply flat_grows hs hgrows hfresh
      intro w hw
      rw [Set.mem_singleton_iff] at hw
      rw [hw]
      exact habsent
    . obtain ⟨q, hpte, -⟩ := hfresh (va / PGSIZE) rfl
      simp [Proc.accessible, hpte]

end

end Xv6.Vm
