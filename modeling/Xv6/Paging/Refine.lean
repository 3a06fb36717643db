import Mathlib.Order.Interval.Set.Basic
import Xv6.Lib.Outcome
import Xv6.Paging.Words

/-!
A page directory and its page tables are a map from the pages to entries, and `mappages` is an update of that map.
-/

namespace Xv6.Paging

open Outcome

/-- The entry for the page of `va`, if it is present. -/
def translate (m : Mem) (pgdir va : Word) : Option Word :=
  let pde := m.data pgdir (PDX va)
  if present pde then
    let pte := m.data (PTE_ADDR pde) (PTX va)
    if present pte then some pte else none
  else none

-- The page directories `dirs` and their page tables are different pages, and none of them is free.
structure Wf (dirs : Word → Prop) (m : Mem) : Prop where
  aligned : ∀ p ∈ m.free, Aligned p
  nodup : m.free.Nodup
  dirFree : ∀ d, dirs d → d ∉ m.free
  tabFree : ∀ d, dirs d → ∀ i, i < 1024 → present (m.data d i) = true → PTE_ADDR (m.data d i) ∉ m.free
  tabDir : ∀ d d', dirs d → dirs d' → ∀ i, i < 1024 → present (m.data d i) = true → PTE_ADDR (m.data d i) ≠ d'
  tabInj : ∀ d d', dirs d → dirs d' → ∀ i i', i < 1024 → i' < 1024 → present (m.data d i) = true →
    present (m.data d' i') = true → PTE_ADDR (m.data d i) = PTE_ADDR (m.data d' i') → d = d' ∧ i = i'

-- Only entries for the pages in `S` change, and the page tables that are new are zero elsewhere.
structure Maps (dirs : Word → Prop) (pgdir : Word) (S : Set Nat) (m m' : Mem) : Prop where
  wf : Wf dirs m'
  free : ∀ p ∈ m'.free, p ∈ m.free
  dirs : ∀ d, dirs d → d ≠ pgdir → m'.data d = m.data d ∧
    ∀ i, i < 1024 → present (m.data d i) = true → m'.data (PTE_ADDR (m.data d i)) = m.data (PTE_ADDR (m.data d i))
  old : ∀ i, i < 1024 → present (m.data pgdir i) = true → m'.data pgdir i = m.data pgdir i ∧
    ∀ j, j < 1024 → 1024 * i + j ∉ S → m'.data (PTE_ADDR (m.data pgdir i)) j = m.data (PTE_ADDR (m.data pgdir i)) j
  new : ∀ i, i < 1024 → present (m.data pgdir i) = false → m'.data pgdir i = m.data pgdir i ∨
    present (m'.data pgdir i) = true ∧ PTE_ADDR (m'.data pgdir i) ∈ m.free ∧
      ∀ j, j < 1024 → 1024 * i + j ∉ S → m'.data (PTE_ADDR (m'.data pgdir i)) j = 0

variable {dirs : Word → Prop} {pgdir a last pa perm va w : Word} {S T : Set Nat} {m m' m'' : Mem} {fuel n v : Nat}

-- The words of the page directories decide about `Wf`.
theorem Wf.congr (h : Wf dirs m) (hfree : m'.free = m.free) (hdata : ∀ d, dirs d → m'.data d = m.data d) : Wf dirs m' where
  aligned := by
    rw [hfree]
    exact h.aligned
  nodup := by
    rw [hfree]
    exact h.nodup
  dirFree := by
    rw [hfree]
    exact h.dirFree
  tabFree d hd := by
    rw [hfree, hdata d hd]
    exact h.tabFree d hd
  tabDir d d' hd hd' := by
    rw [hdata d hd]
    exact h.tabDir d d' hd hd'
  tabInj d d' hd hd' := by
    rw [hdata d hd, hdata d' hd']
    exact h.tabInj d d' hd hd'

theorem Wf.empty (haligned : ∀ p ∈ m.free, Aligned p) (hnodup : m.free.Nodup) : Wf (fun _ => False) m where
  aligned := haligned
  nodup := hnodup
  dirFree _ := False.elim
  tabFree _ := False.elim
  tabDir _ _ := False.elim
  tabInj _ _ := False.elim

-- `setupkvm` gets a page and clears it.
theorem Wf.newDir {q : Word} (h : Wf dirs m) (htake : m.take = some (q, m'))
    : Wf (fun d => d = q ∨ dirs d) (m'.put q fun _ => 0) := by
  obtain ⟨hfree, hdata⟩ := Pool.take_eq_some htake
  have hmem : ∀ p ∈ m'.free, p ∈ m.free := by
    rw [hfree]
    exact fun p hp => List.mem_cons_of_mem q hp
  have hqmem : q ∈ m.free := by
    rw [hfree]
    exact List.mem_cons_self
  have hnodup := h.nodup
  rw [hfree, List.nodup_cons] at hnodup
  have hdirs : ∀ d i, d = q ∨ dirs d → present ((m'.put q fun _ => 0).data d i) = true →
      dirs d ∧ (m'.put q fun _ => 0).data d i = m.data d i := by
    intro d i hd hpresent
    by_cases hdq : d = q
    . rw [hdq, show (m'.put q fun _ => 0).data q i = 0 from congrFun (if_pos rfl) i] at hpresent
      cases hpresent
    . refine ⟨hd.resolve_left hdq, ?_⟩
      rw [show (m'.put q fun _ => 0).data d = m'.data d from if_neg hdq, hdata]
  constructor
  . exact fun p hp => h.aligned p (hmem p hp)
  . exact hnodup.2
  . rintro d (rfl | hd) hp
    . exact hnodup.1 hp
    . exact h.dirFree d hd (hmem d hp)
  . intro d hd i hi hpresent hp
    obtain ⟨hd, heq⟩ := hdirs d i hd hpresent
    rw [heq] at hpresent hp
    exact h.tabFree d hd i hi hpresent (hmem _ hp)
  . intro d d' hd hd' i hi hpresent
    obtain ⟨hold, heq⟩ := hdirs d i hd hpresent
    rw [heq] at hpresent ⊢
    rcases hd' with rfl | hd'
    . intro htab
      exact h.tabFree d hold i hi hpresent (htab ▸ hqmem)
    . exact h.tabDir d d' hold hd' i hi hpresent
  . intro d d' hd hd' i i' hi hi' hpresent hpresent'
    obtain ⟨hd, heq⟩ := hdirs d i hd hpresent
    obtain ⟨hd', heq'⟩ := hdirs d' i' hd' hpresent'
    rw [heq] at hpresent ⊢
    rw [heq'] at hpresent' ⊢
    exact h.tabInj d d' hd hd' i i' hi hi' hpresent hpresent'

theorem Maps.refl (h : Wf dirs m) : Maps dirs pgdir S m m where
  wf := h
  free _ := id
  dirs _ _ _ := ⟨rfl, fun _ _ _ => rfl⟩
  old _ _ _ := ⟨rfl, fun _ _ _ => rfl⟩
  new _ _ _ := .inl rfl

theorem Maps.trans (h : Maps dirs pgdir S m m') (h' : Maps dirs pgdir T m' m'') : Maps dirs pgdir (S ∪ T) m m'' where
  wf := h'.wf
  free p hp := h.free p (h'.free p hp)
  dirs d hd hne := by
    obtain ⟨hdir, htabs⟩ := h.dirs d hd hne
    obtain ⟨hdir', htabs'⟩ := h'.dirs d hd hne
    rw [hdir] at hdir' htabs'
    exact ⟨hdir', fun i hi hpresent => (htabs' i hi hpresent).trans (htabs i hi hpresent)⟩
  old i hi hpresent := by
    obtain ⟨hpde, htab⟩ := h.old i hi hpresent
    have hold' := h'.old i hi
    rw [hpde] at hold'
    obtain ⟨hpde', htab'⟩ := hold' hpresent
    refine ⟨hpde', fun j hj hout => ?_⟩
    rw [Set.mem_union, not_or] at hout
    rw [htab' j hj hout.2, htab j hj hout.1]
  new i hi habsent := by
    rcases h.new i hi habsent with hsame | ⟨hpresent, hfree, hzero⟩
    . have hnew' := h'.new i hi
      rw [hsame] at hnew'
      rcases hnew' habsent with hsame' | ⟨hpresent', hfree', hzero'⟩
      . exact .inl hsame'
      . refine .inr ⟨hpresent', h.free _ hfree', fun j hj hout => hzero' j hj fun hT => hout (.inr hT)⟩
    . obtain ⟨hpde, htab⟩ := h'.old i hi hpresent
      rw [hpde]
      refine .inr ⟨hpresent, hfree, fun j hj hout => ?_⟩
      rw [Set.mem_union, not_or] at hout
      rw [htab j hj hout.2, hzero j hj hout.1]

theorem Maps.mono (h : Maps dirs pgdir S m m') (hST : S ⊆ T) : Maps dirs pgdir T m m' where
  wf := h.wf
  free := h.free
  dirs := h.dirs
  old i hi hpresent := by
    obtain ⟨hpde, htab⟩ := h.old i hi hpresent
    exact ⟨hpde, fun j hj hout => htab j hj fun hS => hout (hST hS)⟩
  new i hi habsent := by
    rcases h.new i hi habsent with hsame | ⟨hpresent, hfree, hzero⟩
    . exact .inl hsame
    . exact .inr ⟨hpresent, hfree, fun j hj hout => hzero j hj fun hS => hout (hST hS)⟩

theorem store_data (m : Mem) (page : Word) (i : Nat) (w p : Word)
    : (Mem.store m page i w).data p = if p = page then Function.update (m.data page) i w else m.data p := rfl

theorem memset_data (m : Mem) (q p : Word) (f : Nat → Word) : (m.put q f).data p = if p = q then f else m.data p := rfl

theorem present_iff : present w = true ↔ w &&& PTE_P ≠ 0 :=
  decide_eq_true_iff

theorem PDX_lt (va : Word) : PDX va < 1024 := by
  have := va.isLt
  rw [PDX_eq]
  omega

-- The entry that `walkpgdir` makes for the page table `q`.
def newPde (q : Word) : Word :=
  q ||| PTE_P ||| PTE_W ||| PTE_U

theorem newPde_spec {q : Word} (hq : Aligned q) : PTE_ADDR (newPde q) = q ∧ present (newPde q) = true := by
  have hflags : newPde q = q ||| (PTE_P ||| (PTE_W ||| PTE_U)) := by
    unfold newPde
    rw [BitVec.or_assoc, BitVec.or_assoc]
  rw [hflags]
  exact ⟨PTE_ADDR_or hq (by decide), present_or q (by decide)⟩

-- The memory with the new page table `q` for the entry `i`.
theorem Wf.addTab {q : Word} {i : Nat} (h : Wf dirs m) (hd : dirs pgdir) (hi : i < 1024)
    (habsent : present (m.data pgdir i) = false) (hfree : m.free = q :: m'.free) (hq : m'.data q = fun _ => 0)
    (hpgdir : m'.data pgdir = Function.update (m.data pgdir) i (newPde q))
    (hother : ∀ p, p ≠ pgdir → p ≠ q → m'.data p = m.data p)
    : Maps dirs pgdir ∅ m m' := by
  obtain ⟨haddr, hpresent⟩ := newPde_spec (h.aligned q (by rw [hfree]; exact List.mem_cons_self))
  have hmem : ∀ p ∈ m'.free, p ∈ m.free := by
    rw [hfree]
    exact fun p hp => List.mem_cons_of_mem q hp
  have hqmem : q ∈ m.free := by
    rw [hfree]
    exact List.mem_cons_self
  have hqdir : ∀ d, dirs d → d ≠ q := by
    rintro d hd rfl
    exact h.dirFree d hd hqmem
  have hword : ∀ d, dirs d → ∀ k, m'.data d k = if d = pgdir ∧ k = i then newPde q else m.data d k := by
    intro d hd' k
    by_cases heq : d = pgdir
    . rw [heq, hpgdir]
      by_cases hk : k = i
      . rw [hk, Function.update_self, if_pos ⟨rfl, rfl⟩]
      . rw [Function.update_of_ne hk, if_neg fun hc => hk hc.2]
    . rw [hother d heq (hqdir d hd'), if_neg fun hc => heq hc.1]
  have htab : ∀ d, dirs d → ∀ k, k < 1024 → present (m.data d k) = true →
      m'.data (PTE_ADDR (m.data d k)) = m.data (PTE_ADDR (m.data d k)) := by
    intro d hd' k hk hp
    apply hother
    . exact h.tabDir d pgdir hd' hd k hk hp
    . intro heq
      exact h.tabFree d hd' k hk hp (by rw [heq]; exact hqmem)
  have hwf : Wf dirs m' := by
    constructor
    . exact fun p hp => h.aligned p (hmem p hp)
    . have hnodup := h.nodup
      rw [hfree] at hnodup
      exact (List.nodup_cons.mp hnodup).2
    . exact fun d hd' hp => h.dirFree d hd' (hmem d hp)
    . intro d hd' k hk hp
      rw [hword d hd'] at hp ⊢
      split
      . rw [haddr]
        have hnodup := h.nodup
        rw [hfree] at hnodup
        exact (List.nodup_cons.mp hnodup).1
      . next hne =>
        rw [if_neg hne] at hp
        exact fun hp' => h.tabFree d hd' k hk hp (hmem _ hp')
    . intro d d' hd1 hd2 k hk hp
      rw [hword d hd1] at hp ⊢
      split
      . rw [haddr]
        exact (hqdir d' hd2).symm
      . next hne =>
        rw [if_neg hne] at hp
        exact h.tabDir d d' hd1 hd2 k hk hp
    . intro d d' hd1 hd2 k k' hk hk' hp hp' heq
      rw [hword d hd1] at hp heq
      rw [hword d' hd2] at hp' heq
      by_cases hne : d = pgdir ∧ k = i
      . rw [if_pos hne] at heq
        by_cases hne' : d' = pgdir ∧ k' = i
        . exact ⟨hne.1.trans hne'.1.symm, hne.2.trans hne'.2.symm⟩
        . rw [if_neg hne'] at hp' heq
          exact absurd (by rw [← heq, haddr]; exact hqmem) (h.tabFree d' hd2 k' hk' hp')
      . rw [if_neg hne] at hp heq
        by_cases hne' : d' = pgdir ∧ k' = i
        . rw [if_pos hne'] at heq
          exact absurd (by rw [heq, haddr]; exact hqmem) (h.tabFree d hd1 k hk hp)
        . rw [if_neg hne'] at hp' heq
          exact h.tabInj d d' hd1 hd2 k k' hk hk' hp hp' heq
  constructor
  . exact hwf
  . exact hmem
  . intro d hd' hne
    exact ⟨hother d hne (hqdir d hd'), htab d hd'⟩
  . intro k hk hp
    have hki : k ≠ i := by
      rintro rfl
      rw [habsent] at hp
      cases hp
    refine ⟨by rw [hpgdir, Function.update_of_ne hki], fun j _ _ => ?_⟩
    rw [htab pgdir hd k hk hp]
  . intro k hk hp
    rw [hpgdir]
    by_cases hki : k = i
    . rw [hki, Function.update_self, haddr, hq]
      exact .inr ⟨hpresent, hqmem, fun _ _ _ => rfl⟩
    . exact .inl (Function.update_of_ne hki _ _)

theorem walkpgdir_spec (h : Wf dirs m) (hd : dirs pgdir) (va : Word)
    : (walkpgdir pgdir va true m = none ∧ m.free = []) ∨
      ∃ m', walkpgdir pgdir va true m = some ((PTE_ADDR (m'.data pgdir (PDX va)), PTX va), m') ∧
        Maps dirs pgdir ∅ m m' ∧ present (m'.data pgdir (PDX va)) = true := by
  unfold walkpgdir
  dsimp only
  by_cases hpresent : present (m.data pgdir (PDX va)) = true
  . rw [if_pos (present_iff.mp hpresent)]
    exact .inr ⟨m, rfl, .refl h, hpresent⟩
  . rw [if_neg (mt present_iff.mpr hpresent), if_neg (by decide)]
    cases htake : m.take with
    | none => exact .inl ⟨rfl, Pool.take_eq_none.mp htake⟩
    | some r =>
      obtain ⟨q, m1⟩ := r
      obtain ⟨hfree, hdata⟩ := Pool.take_eq_some htake
      have hqmem : q ∈ m.free := by
        rw [hfree]
        exact List.mem_cons_self
      have hne : pgdir ≠ q := by
        rintro rfl
        exact h.dirFree _ hd hqmem
      obtain ⟨haddr, hpde⟩ := newPde_spec (h.aligned q hqmem)
      have hpgdir : (Mem.store (m1.put q fun _ => 0) pgdir (PDX va) (newPde q)).data pgdir =
          Function.update (m.data pgdir) (PDX va) (newPde q) := by
        rw [store_data, if_pos rfl, memset_data, if_neg hne, hdata]
      have hfree' : m.free = q :: (Mem.store (m1.put q fun _ => 0) pgdir (PDX va) (newPde q)).free := hfree
      have hword : (Mem.store (m1.put q fun _ => 0) pgdir (PDX va) (newPde q)).data pgdir (PDX va) = newPde q := by
        rw [hpgdir, Function.update_self]
      refine .inr ⟨Mem.store (m1.put q fun _ => 0) pgdir (PDX va) (newPde q), ?_, ?_, by rw [hword]; exact hpde⟩
      . rw [hword, haddr]
        rfl
      . refine h.addTab hd (PDX_lt va) (by simpa using hpresent) hfree' ?_ hpgdir ?_
        . rw [store_data, if_neg hne.symm, memset_data, if_pos rfl]
        . intro p hp hpq
          rw [store_data, if_neg hp, memset_data, if_neg hpq, hdata]

theorem Wf.store {i j : Nat} (h : Wf dirs m) (hd : dirs pgdir) (hi : i < 1024)
    (hpresent : present (m.data pgdir i) = true) (w : Word)
    : Maps dirs pgdir {1024 * i + j} m (Mem.store m (PTE_ADDR (m.data pgdir i)) j w) := by
  have hdir : ∀ d, dirs d → (Mem.store m (PTE_ADDR (m.data pgdir i)) j w).data d = m.data d := by
    intro d hd'
    rw [store_data, if_neg (h.tabDir pgdir d hd hd' i hi hpresent).symm]
  constructor
  . exact h.congr rfl hdir
  . exact fun p => id
  . intro d hd' hne
    refine ⟨hdir d hd', fun k hk hp => ?_⟩
    rw [store_data, if_neg]
    intro heq
    exact hne (h.tabInj d pgdir hd' hd k i hk hi hp hpresent heq).1
  . intro k hk hp
    refine ⟨by rw [hdir pgdir hd], fun j' hj' hout => ?_⟩
    rw [store_data]
    split
    . next heq =>
      obtain ⟨-, rfl⟩ := h.tabInj pgdir pgdir hd hd k i hk hi hp hpresent heq
      rw [Function.update_of_ne]
      rintro rfl
      exact hout rfl
    . rfl
  . exact fun k hk hp => .inl (by rw [hdir pgdir hd])

-- The entry for the page `v` is `w`, whether it is present or not.
def Holds (m : Mem) (pgdir : Word) (v : Nat) (w : Word) : Prop :=
  present (m.data pgdir (v / 1024)) = true ∧ m.data (PTE_ADDR (m.data pgdir (v / 1024))) (v % 1024) = w

theorem Maps.holds (h : Maps dirs pgdir S m m') (hv : v < 2 ^ 20) (hout : v ∉ S) (hw : Holds m pgdir v w)
    : Holds m' pgdir v w := by
  obtain ⟨hpresent, rfl⟩ := hw
  have hi : v / 1024 < 1024 := by omega
  obtain ⟨hpde, htab⟩ := h.old (v / 1024) hi hpresent
  unfold Holds
  rw [hpde]
  refine ⟨hpresent, htab (v % 1024) (Nat.mod_lt _ (by decide)) ?_⟩
  rwa [Nat.div_add_mod]

theorem translate_of_holds (h : Holds m pgdir (va.toNat / 4096) w) (hw : present w = true) : translate m pgdir va = some w := by
  obtain ⟨hpresent, rfl⟩ := h
  unfold translate
  rw [PDX_eq, PTX_eq]
  dsimp only
  rw [if_pos hpresent, if_pos hw]

-- A translation is an entry that is held and present.
theorem translate_eq (m : Mem) (pgdir va : Word)
    : (∃ w, Holds m pgdir (va.toNat / 4096) w ∧ translate m pgdir va = if present w then some w else none) ∨
      present (m.data pgdir (va.toNat / 4096 / 1024)) = false ∧ translate m pgdir va = none := by
  unfold translate Holds
  rw [PDX_eq, PTX_eq]
  dsimp only
  cases hpresent : present (m.data pgdir (va.toNat / 4096 / 1024)) with
  | true => exact .inl ⟨_, ⟨rfl, rfl⟩, by rw [if_pos rfl]⟩
  | false => exact .inr ⟨rfl, by rw [if_neg (by decide)]⟩

theorem Maps.translate (h : Maps dirs pgdir S m m') (hout : va.toNat / 4096 ∉ S)
    : translate m' pgdir va = translate m pgdir va := by
  have hv : va.toNat / 4096 < 2 ^ 20 := by
    have := va.isLt
    omega
  rcases translate_eq m pgdir va with ⟨w, hw, heq⟩ | ⟨habsent, heq⟩
  . have hw' := h.holds hv hout hw
    rcases translate_eq m' pgdir va with ⟨w', hw'', heq'⟩ | ⟨habsent', -⟩
    . rw [heq, heq', hw''.2.symm.trans hw'.2]
    . rw [hw'.1] at habsent'
      cases habsent'
  . rw [heq]
    rcases h.new (va.toNat / 4096 / 1024) (by omega) habsent with hsame | ⟨hpresent, -, hzero⟩
    . rcases translate_eq m' pgdir va with ⟨w', hw', -⟩ | ⟨-, heq'⟩
      . have := hw'.1
        rw [hsame, habsent] at this
        cases this
      . exact heq'
    . have hz := hzero (va.toNat / 4096 % 1024) (Nat.mod_lt _ (by decide)) (by rwa [Nat.div_add_mod])
      rcases translate_eq m' pgdir va with ⟨w', hw', heq'⟩ | ⟨-, heq'⟩
      . rw [heq', ← hw'.2, hz]
        rfl
      . exact heq'

theorem Maps.translate_other {d : Word} (h : Maps dirs pgdir S m m') (hd : dirs d) (hne : d ≠ pgdir) (va : Word)
    : Paging.translate m' d va = Paging.translate m d va := by
  obtain ⟨hdir, htab⟩ := h.dirs d hd hne
  unfold Paging.translate
  rw [hdir]
  dsimp only
  split
  . next hpresent => rw [htab (PDX va) (PDX_lt va) hpresent]
  . rfl

end Xv6.Paging
