import Mathlib.Data.Nat.Find
import Xv6.Umalloc.Bounded

/-!
For which requests `malloc` keeps its promise in the process.
-/

namespace Xv6.Umalloc.Process

variable {room : Calls → Nat → Bool} {p0 p : Proc} {base text n : Nat} {calls : Calls}

-- The heaps of the program, as long as no call of `sbrk` gets a negative number.
structure Good (room : Calls → Nat → Bool) (p0 : Proc) (base : Nat) (t : Prog) : Prop where
  sound : Sound base t
  history : History room p0 t.heap.calls

theorem init_calls (base : Nat) (s : Heap) : (init base s).calls = s.calls := by
  unfold init
  split <;> rfl

/--
What a call of `malloc` promises. The free list that the first call makes is empty.
-/
def Meets (room : Calls → Nat → Bool) (p0 : Proc) (base text : Nat) (nbytes : UInt32) (s : Heap) : Prop :=
  ∀ fuel r s', malloc room p0 base text fuel nbytes s = .ok (r, s') →
    if r = 0 then
      (proc room p0 s'.calls).sz = (proc room p0 s.calls).sz ∧ s'.mem = (init base s).mem ∧
        s'.freep = (init base s).freep
    else r + nbytes.toNat ≤ s'.mem.next (r - 8) ∧ r + nbytes.toNat ≤ (proc room p0 s'.calls).sz

section

variable {t t' : Prog} {nbytes : UInt32} {fuel r : Nat} {s' : Heap}

theorem malloc_eq (hlayout : Layout p0 base text) (h : Good room p0 base t) (hsmall : Small nbytes) (fuel : Nat)
    : malloc room p0 base text fuel nbytes t.heap =
        orRounds (Umalloc.malloc (sbrk room p0) base fuel nbytes t.heap) := by
  obtain ⟨nodes, hinv⟩ := h.sound.init hlayout.base_pos
  have hhistory := h.history
  rw [← init_calls base t.heap] at hhistory
  exact search_eq hlayout hinv hhistory (nunits_pos nbytes) hsmall hinv.freep rfl

theorem nunits_eq (h : nbytes.toNat + 7 < 2 ^ 32) : nunits nbytes = (nbytes.toNat + 7) / 8 + 1 := by
  have h8 : (8 : UInt32).toNat = 8 := rfl
  have h1 : (1 : UInt32).toNat = 1 := rfl
  have hlt := nbytes.toNat_lt
  unfold nunits
  rw [UInt32.toNat_add, UInt32.toNat_div, UInt32.toNat_sub, UInt32.toNat_add, h8, h1]
  omega

theorem nunits_wrap (h : 2 ^ 32 ≤ nbytes.toNat + 7) : nunits nbytes = 1 := by
  have h8 : (8 : UInt32).toNat = 8 := rfl
  have h1 : (1 : UInt32).toNat = 1 := rfl
  have hlt := nbytes.toNat_lt
  unfold nunits
  rw [UInt32.toNat_add, UInt32.toNat_div, UInt32.toNat_sub, UInt32.toNat_add, h8, h1]
  omega

-- The requests for which no size wraps around.
def Fits (nbytes : UInt32) : Prop :=
  nbytes.toNat + 15 < 2 ^ 31

instance (nbytes : UInt32) : Decidable (Fits nbytes) :=
  inferInstanceAs (Decidable (_ < _))

theorem Fits.small (h : Fits nbytes) : Small nbytes := by
  unfold Fits at h
  unfold Small
  rw [nunits_eq (by omega)]
  omega

theorem proc_refused {m : Nat} (hlayout : Layout p0 base text) (h : History room p0 calls) (hm : 0 < m)
    (hlt : m < 2 ^ 31) (hsbrk : sbrk room p0 calls m = none)
    : (proc room p0 ((m, none) :: calls)).sz = (proc room p0 calls).sz := by
  rw [sbrk_of_history h hm hlt] at hsbrk
  rcases sysSbrk_cases (room calls) (h.steady hlayout).lt hm hlt with ⟨-, hsz, -⟩ | ⟨hsome, -⟩
  . exact hsz
  . rw [hsome] at hsbrk
    cases hsbrk

theorem malloc_ok (hlayout : Layout p0 base text) (h : Good room p0 base t) (hsmall : Small nbytes)
    (hmalloc : malloc room p0 base text fuel nbytes t.heap = .ok (r, s'))
    : Umalloc.search (sbrk room p0) (nunits nbytes) fuel (init base t.heap).freep
        ((init base t.heap).mem (init base t.heap).freep).ptr (init base t.heap) = some (r, s') := by
  rw [malloc_eq hlayout h hsmall] at hmalloc
  cases hresult : Umalloc.malloc (sbrk room p0) base fuel nbytes t.heap with
  | none =>
    rw [hresult] at hmalloc
    cases hmalloc
  | some x =>
    rw [hresult] at hmalloc
    cases hmalloc
    exact hresult

/-- Without a size that wraps around, a request is answered or refused by `sbrk`. -/
theorem meets_of_fits (hlayout : Layout p0 base text) (h : Good room p0 base t) (hfits : Fits nbytes)
    : Meets room p0 base text nbytes t.heap := by
  intro fuel r s' hmalloc
  have hsearch := malloc_ok hlayout h hfits.small hmalloc
  obtain ⟨nodes, hinv⟩ := h.sound.init hlayout.base_pos
  have hhistory := h.history
  rw [← init_calls base t.heap] at hhistory
  have hends := search_ends (fresh hlayout) hfits.small hinv hsearch
  cases hends with
  | block hne hsize =>
    rw [if_neg hne]
    obtain ⟨nodes', hsound⟩ := search_sound (fresh hlayout) (nunits_pos nbytes) hfits.small hinv hinv.freep rfl hsearch
    obtain ⟨b, rfl, hinv'⟩ : ∃ b, r = b + 8 ∧ Inv base (b :: t.live) nodes' s' :=
      hsound.resolve_left fun hzero => hne hzero.1
    have hhistory' := search_history hfits.small hhistory hsearch
    have hend := next_le_of_pos hinv' (fun r hr => (hhistory'.regions_le hlayout r hr).2)
      (List.mem_append_right _ List.mem_cons_self) (hinv'.pos b List.mem_cons_self)
    rw [Nat.add_sub_cancel] at hsize ⊢
    unfold Fits at hfits
    rw [nunits_eq (by omega)] at hsize
    unfold Mem.next at *
    rw [hsize] at hend ⊢
    omega
  | failed hm hfail hbefore =>
    rw [if_pos rfl]
    refine ⟨?_, rfl, rfl⟩
    obtain ⟨-, hpos, hlt, -⟩ := units_bounds hfits.small rfl
    rw [proc_refused hlayout hhistory (by omega) (by omega) hfail, init_calls]

-- There is no free block.
def Empty (base : Nat) (s : Heap) : Prop :=
  ((init base s).mem base).ptr = base

theorem FreeList.eq_singleton {mem : Mem} {nodes : List Nat} (h : FreeList mem base nodes)
    (hptr : (mem base).ptr = base)
    : nodes = [base] := by
  obtain ⟨l, rfl⟩ := h.exists_tail
  cases l with
  | nil => rfl
  | cons c l =>
    have hedge := h.seg.1
    have hlt := hedge.lt
    have := le_next mem base
    have hc := hedge.ptr
    omega

theorem eq_singleton_of_small {s : Heap} {nodes : List Nat} (h : FreeList s.mem base nodes) (hfreep : s.freep ∈ nodes)
    (hbefore : ∀ k, (∀ j < k, (fun a => (s.mem a).ptr)^[j] (s.mem s.freep).ptr ≠ s.freep) →
      (s.mem ((fun a => (s.mem a).ptr)^[k] (s.mem s.freep).ptr)).size < 1)
    : (s.mem base).ptr = base := by
  by_contra hne
  have hpos := h.pos _ (h.ptr_mem h.base_mem) hne
  have hreach := h.reaches (h.ptr_mem hfreep) (h.ptr_mem h.base_mem)
  obtain ⟨k, hk, hmin⟩ : ∃ k, (fun a => (s.mem a).ptr)^[k] (s.mem s.freep).ptr = (s.mem base).ptr ∧
      ∀ j < k, (fun a => (s.mem a).ptr)^[j] (s.mem s.freep).ptr ≠ (s.mem base).ptr := by
    classical
    exact ⟨Nat.find hreach, Nat.find_spec hreach, fun j hj => Nat.find_min hreach hj⟩
  have hsmall := hbefore k fun j hj hloop => by
    -- behind `freep` the way starts again
    have hagain : (fun a => (s.mem a).ptr)^[j + 1] (s.mem s.freep).ptr = (s.mem s.freep).ptr := by
      rw [Function.iterate_succ_apply', hloop]
    have hsplit : k = (k - (j + 1)) + (j + 1) := by omega
    rw [hsplit, Function.iterate_add_apply, hagain] at hk
    exact hmin (k - (j + 1)) (by omega) hk
  rw [hk] at hsmall
  omega

/-- A request whose size wraps around to one unit: whatever is returned is too small. -/
theorem meets_of_wrap (hlayout : Layout p0 base text) (h : Good room p0 base t) (hwrap : 2 ^ 32 ≤ nbytes.toNat + 7)
    : Meets room p0 base text nbytes t.heap ↔
        Empty base t.heap ∧ (sysSbrk (room t.heap.calls) (proc room p0 t.heap.calls) 32768).2 = none := by
  have hunits := nunits_wrap hwrap
  have hsmall : Small nbytes := by
    unfold Small
    omega
  obtain ⟨nodes, hinv⟩ := h.sound.init hlayout.base_pos
  have hhistory := h.history
  have hcalls := init_calls base t.heap
  have hsbrk := sbrk_of_history hhistory (show 0 < 32768 by decide) (by decide)
  constructor
  . intro hmeets
    obtain ⟨k, hk⟩ := hinv.list.reaches (hinv.list.ptr_mem hinv.freep) hinv.freep
    have hterminates : ∃ m, ∀ fuel, m ≤ fuel → (Umalloc.malloc (sbrk room p0) base fuel nbytes t.heap).isSome :=
      search_terminates hinv (fresh hlayout) hsmall hk
    obtain ⟨fuel, hfuel⟩ := hterminates
    obtain ⟨⟨r, s'⟩, hsearch⟩ := Option.isSome_iff_exists.mp (hfuel fuel (Nat.le_refl _))
    have hmalloc : malloc room p0 base text fuel nbytes t.heap = .ok (r, s') := by
      rw [malloc_eq hlayout h hsmall, hsearch]
      rfl
    have hresult := hmeets fuel r s' hmalloc
    have hends := search_ends (fresh hlayout) hsmall hinv hsearch
    rw [hunits] at hends
    cases hends with
    | block hne hsize =>
      rw [if_neg hne] at hresult
      have := hresult.1
      unfold Mem.next at this
      rw [hsize] at this
      omega
    | failed hm hfail hbefore =>
      refine ⟨eq_singleton_of_small hinv.list hinv.freep hbefore, ?_⟩
      rw [if_pos (by decide)] at hm
      subst hm
      rw [← hsbrk, ← hcalls]
      exact hfail
  . rintro ⟨hempty, hrefused⟩ fuel r s' hmalloc
    have hsearch := malloc_ok hlayout h hsmall hmalloc
    have hnodes := FreeList.eq_singleton hinv.list hempty
    have hfreep := hinv.freep
    rw [hnodes, List.mem_singleton] at hfreep
    rw [hunits] at hsearch
    cases fuel with
    | zero => cases hsearch
    | succ fuel =>
      have hsize : ¬ ((init base t.heap).mem base).size ≥ 1 := by
        rw [hinv.list.base_size]
        omega
      have hcall : sbrk room p0 (init base t.heap).calls (4096 * 8) = none := by
        rw [hcalls]
        exact hsbrk.trans hrefused
      rw [hfreep, Umalloc.search, hempty, if_neg hsize, if_pos hfreep.symm,
        morecore_refused (n := 1) (by decide) rfl hcall] at hsearch
      cases hsearch
      rw [if_pos rfl]
      refine ⟨?_, rfl, rfl⟩
      rw [hcalls]
      exact proc_refused hlayout hhistory (by decide) (by decide) (hsbrk.trans hrefused)

end

-- A number of bytes that is negative as an `int`, or zero.
inductive Shrinks (p : Proc) (z : Nat) : Proc × Option Nat → Prop where
  | stays (h : z = 2 ^ 32 ∨ p.sz + z < 2 ^ 32) : Shrinks p z (p, some p.sz)
  | fails (h : p.sz + z = 2 ^ 32) : Shrinks p z ({ p with mapped := fun i => p.mapped i && !between 0 p.sz i }, none)
  | shrinks (h : 2 ^ 32 < p.sz + z) (hz : z < 2 ^ 32)
    : Shrinks p z (⟨p.sz + z - 2 ^ 32, fun i => p.mapped i && !between (p.sz + z - 2 ^ 32) p.sz i⟩, some p.sz)

theorem sysSbrk_shrinks (room : Nat → Bool) {z : Nat} (hpos : 0 < p.sz) (hsz : p.sz < KERNBASE) (hz : 2 ^ 31 ≤ z)
    (hle : z ≤ 2 ^ 32)
    : Shrinks p z (sysSbrk room p (z % 2 ^ 32)) := by
  unfold KERNBASE at hsz
  by_cases hzero : z = 2 ^ 32
  . have heq : sysSbrk room p (z % 2 ^ 32) = (p, some p.sz) := by
      rw [hzero]
      rfl
    rw [heq]
    exact .stays (.inl hzero)
  . have hmod : z % 2 ^ 32 = z := by omega
    have hint : ¬ z < 2 ^ 31 := by omega
    have hneg : ¬ ((z : Int) - 2 ^ 32 > 0) := by omega
    have hneg' : (z : Int) - 2 ^ 32 < 0 := by omega
    rw [hmod]
    rcases Nat.lt_trichotomy (p.sz + z) (2 ^ 32) with hlt | heq | hgt
    . have hnew : ((p.sz + ((z : Int) - 2 ^ 32)) % 2 ^ 32).toNat = p.sz + z := by omega
      have hge : p.sz + z ≥ p.sz := by omega
      have hsbrk : sysSbrk room p z = (p, some p.sz) := by
        unfold sysSbrk growproc deallocuvm
        simp only [if_neg hint, if_neg hneg, if_pos hneg', hnew, if_pos hge, if_neg (Nat.ne_of_gt hpos)]
        rfl
      rw [hsbrk]
      exact .stays (.inr hlt)
    . have hnew : ((p.sz + ((z : Int) - 2 ^ 32)) % 2 ^ 32).toNat = 0 := by omega
      have hlt : ¬ 0 ≥ p.sz := by omega
      have hsbrk : sysSbrk room p z = ({ p with mapped := fun i => p.mapped i && !between 0 p.sz i }, none) := by
        unfold sysSbrk growproc deallocuvm
        simp only [if_neg hint, if_neg hneg, if_pos hneg', hnew, if_neg hlt]
        rfl
      rw [hsbrk]
      exact .fails heq
    . have hnew : ((p.sz + ((z : Int) - 2 ^ 32)) % 2 ^ 32).toNat = p.sz + z - 2 ^ 32 := by omega
      have hlt : ¬ p.sz + z - 2 ^ 32 ≥ p.sz := by omega
      have hne : ¬ p.sz + z - 2 ^ 32 = 0 := by omega
      have hsbrk : sysSbrk room p z =
          (⟨p.sz + z - 2 ^ 32, fun i => p.mapped i && !between (p.sz + z - 2 ^ 32) p.sz i⟩, some p.sz) := by
        unfold sysSbrk growproc deallocuvm
        simp only [if_neg hint, if_neg hneg, if_pos hneg', hnew, if_neg hlt, if_neg hne]
        rfl
      rw [hsbrk]
      exact .shrinks hgt (by omega)

/--
The page of the old break is there and stays there when `sbrk` gets `8 * nu` as a negative number, or zero: the new
header does not kill the process.
-/
def Kept (sz nu : Nat) : Prop :=
  sz % PGSIZE ≠ 0 ∧ (nu * 8 = 2 ^ 32 ∨ sz + nu * 8 < 2 ^ 32 ∨ sz / PGSIZE * PGSIZE + 2 ^ 32 < sz + nu * 8)

instance (sz nu : Nat) : Decidable (Kept sz nu) :=
  inferInstanceAs (Decidable (_ ∧ _))

section

variable {s : Heap} {nu fuel sz : Nat} {x : Proc × Option Nat}

theorem Kept.page_lt (h : Kept sz nu) : sz / PGSIZE * PGSIZE < sz := by
  have := h.1
  unfold PGSIZE at *
  omega

theorem Kept.ne (h : Kept sz nu) : sz + nu * 8 ≠ 2 ^ 32 := by
  intro heq
  rcases h.2 with hcase | hcase | hcase
  . have hzero : sz = 0 := by omega
    exact h.1 (by rw [hzero]; rfl)
  . omega
  . rw [heq] at hcase
    omega

theorem Kept.page_lt_sub (h : Kept sz nu) (hgt : 2 ^ 32 < sz + nu * 8) (hz : nu * 8 < 2 ^ 32)
    : sz / PGSIZE * PGSIZE < sz + nu * 8 - 2 ^ 32 := by
  rcases h.2 with hcase | hcase | hcase
  . omega
  . omega
  . exact Nat.lt_sub_of_add_lt hcase

theorem Steady.start_le_page (h : Steady p0 text p) (hlayout : Layout p0 base text)
    : p0.sz ≤ p.sz / PGSIZE * PGSIZE := by
  have haligned := hlayout.aligned
  have hle := h.le
  unfold PGSIZE at *
  omega

theorem Steady.shrinks (h : Steady p0 text p) (hlayout : Layout p0 base text) (room : Nat → Bool) (hnu : 2 ^ 28 ≤ nu)
    (hle : nu ≤ 2 ^ 29)
    : Shrinks p (nu * 8) (sysSbrk room p (nu * 8 % 2 ^ 32)) := by
  have hbase := hlayout.base_le
  have hstart := h.le
  exact sysSbrk_shrinks room (by omega) h.lt (by omega) (by omega)

theorem morecore_of_large (hnu : 2 ^ 28 ≤ nu)
    (hx : sysSbrk (room s.calls) (proc room p0 s.calls) (nu * 8 % 2 ^ 32) = x)
    : morecore room p0 text fuel nu s =
        if x.1.mapped text = false then .error .killed
        else
          match x.2 with
          | none => .ok (0, { s with calls := (nu * 8 % 2 ^ 32, x.2) :: s.calls })
          | some hp =>
            if x.1.mapped (hp / PGSIZE) = false then .error .killed
            else do
              let s' ← free fuel ((hp + 8) % 2 ^ 32)
                { s with mem := s.mem.setSize hp nu, calls := (nu * 8 % 2 ^ 32, x.2) :: s.calls }
              return (s'.freep, s') := by
  subst hx
  have hlarge : ¬ nu < 4096 := by omega
  unfold morecore
  simp only [if_neg hlarge]
  rfl

theorem morecore_killed (hlayout : Layout p0 base text) (hsteady : Steady p0 text (proc room p0 s.calls))
    (hnu : 2 ^ 28 ≤ nu) (hle : nu ≤ 2 ^ 29) (hkept : ¬ Kept (proc room p0 s.calls).sz nu)
    : morecore room p0 text fuel nu s = .error .killed := by
  obtain ⟨p, hp⟩ : ∃ p, p = proc room p0 s.calls := ⟨_, rfl⟩
  rw [← hp] at hsteady hkept
  obtain ⟨x, hx⟩ : ∃ x, sysSbrk (room s.calls) p (nu * 8 % 2 ^ 32) = x := ⟨_, rfl⟩
  have htext := hlayout.mapped text hlayout.text
  have hle' := hsteady.le
  have hshrinks := hsteady.shrinks hlayout (room s.calls) hnu hle
  rw [hx] at hshrinks
  have hold := hsteady.mapped _ (hsteady.start_le_page hlayout)
  have hgone : x.1.mapped text = false ∨ x.2 = some p.sz ∧ x.1.mapped (p.sz / PGSIZE) = false := by
    unfold Kept at hkept
    cases hshrinks with
    | stays h =>
      right
      refine ⟨rfl, ?_⟩
      rw [Bool.eq_false_iff, ne_eq, hold]
      unfold PGSIZE at *
      omega
    | fails h =>
      left
      have : between 0 p.sz text = true := between_iff.mpr ⟨Nat.zero_le _, by omega⟩
      simp [this]
    | shrinks h hz =>
      right
      refine ⟨rfl, ?_⟩
      dsimp only
      rw [Bool.eq_false_iff, ne_eq, Bool.and_eq_true, hold, Bool.not_eq_true', Bool.eq_false_iff, ne_eq, between_iff]
      unfold PGSIZE at *
      omega
  subst hp
  rw [morecore_of_large hnu hx]
  rcases hgone with hgone | ⟨hsome, hgone⟩
  . rw [if_pos hgone]
  . rw [hsome]
    dsimp only
    rw [hgone, if_pos rfl]
    split <;> rfl

theorem morecore_kept (hlayout : Layout p0 base text) (hsteady : Steady p0 text (proc room p0 s.calls))
    (hnu : 2 ^ 28 ≤ nu) (hle : nu ≤ 2 ^ 29) (hkept : Kept (proc room p0 s.calls).sz nu)
    : ∃ x : Proc × Option Nat, x.1.sz ≤ (proc room p0 s.calls).sz ∧
        sysSbrk (room s.calls) (proc room p0 s.calls) (nu * 8 % 2 ^ 32) = x ∧
        ∀ fuel, morecore room p0 text fuel nu s = do
          let s' ← free fuel ((proc room p0 s.calls).sz + 8)
            { s with mem := s.mem.setSize (proc room p0 s.calls).sz nu, calls := (nu * 8 % 2 ^ 32, x.2) :: s.calls }
          return (s'.freep, s') := by
  obtain ⟨p, hp⟩ : ∃ p, p = proc room p0 s.calls := ⟨_, rfl⟩
  rw [← hp] at hsteady hkept ⊢
  obtain ⟨x, hx⟩ : ∃ x, sysSbrk (room s.calls) p (nu * 8 % 2 ^ 32) = x := ⟨_, rfl⟩
  have htext := hlayout.mapped text hlayout.text
  have hle' := hsteady.le
  have hlt := hsteady.lt
  have hshrinks := hsteady.shrinks hlayout (room s.calls) hnu hle
  rw [hx] at hshrinks
  have hpage := hsteady.start_le_page hlayout
  have hold := hsteady.mapped _ hpage
  have hstays : x.1.sz ≤ p.sz ∧ x.2 = some p.sz ∧ x.1.mapped text = true ∧ x.1.mapped (p.sz / PGSIZE) = true := by
    cases hshrinks with
    | stays h =>
      refine ⟨Nat.le_refl _, rfl, hsteady.text, ?_⟩
      rw [hold]
      exact hkept.page_lt
    | fails h => exact absurd h hkept.ne
    | shrinks h hz =>
      have hkeep := hkept.page_lt_sub h hz
      unfold KERNBASE at hlt
      refine ⟨by dsimp only; omega, rfl, ?_, ?_⟩
      . dsimp only
        rw [Bool.and_eq_true, Bool.not_eq_true', Bool.eq_false_iff, ne_eq, between_iff]
        exact ⟨hsteady.text, by omega⟩
      . dsimp only
        rw [Bool.and_eq_true, hold, Bool.not_eq_true', Bool.eq_false_iff, ne_eq, between_iff]
        unfold PGSIZE at *
        omega
  obtain ⟨hsz, hsome, htext', hmapped⟩ := hstays
  refine ⟨x, hsz, hx, ?_⟩
  intro fuel
  subst hp
  rw [morecore_of_large hnu hx, if_neg (by simp [htext']), hsome]
  dsimp only
  rw [if_neg (by simp [hmapped]), Nat.mod_eq_of_lt]
  unfold KERNBASE at hlt
  omega

end

section

variable {s : Heap} {live nodes : List Nat} {nu fuel prevp q k c sz : Nat}

-- All blocks of the list are smaller than the one that is asked for.
theorem search_killed (h : FreeList s.mem base nodes) (hsmall : ∀ a ∈ nodes, (s.mem a).size < n) (hq : q ∈ nodes)
    (hmore : ∀ fuel, morecore room p0 text fuel n s = .error .killed) (x : Nat × Heap)
    : search room p0 text n fuel prevp q s ≠ .ok x := by
  induction fuel generalizing prevp q with
  | zero =>
    intro heq
    cases heq
  | succ fuel ih =>
    rw [search, if_neg (Nat.not_le.mpr (hsmall q hq))]
    split
    . rw [hmore]
      intro heq
      cases heq
    . exact ih (h.ptr_mem hq)

theorem search_more (room : Calls → Nat → Bool) (p0 : Proc) (text prevp : Nat) (h : FreeList s.mem base nodes)
    (hsmall : ∀ a ∈ nodes, (s.mem a).size < n) (hq : q ∈ nodes) (hk : (fun a => (s.mem a).ptr)^[k] q = s.freep)
    : ∃ m, ∀ fuel, search room p0 text n (fuel + m + 1) prevp q s =
        (do
          let (p, s) ← morecore room p0 text fuel n s
          if p = 0 then return (0, s) else search room p0 text n fuel p (s.mem p).ptr s) := by
  induction k generalizing prevp q with
  | zero =>
    have hfreep : q = s.freep := hk
    refine ⟨0, ?_⟩
    intro fuel
    rw [Nat.add_zero, search, if_neg (Nat.not_le.mpr (hsmall q hq)), if_pos hfreep]
  | succ k ih =>
    by_cases hfreep : q = s.freep
    . refine ⟨0, ?_⟩
      intro fuel
      rw [Nat.add_zero, search, if_neg (Nat.not_le.mpr (hsmall q hq)), if_pos hfreep]
    . obtain ⟨m, hm⟩ := ih q (h.ptr_mem hq) hk
      refine ⟨m + 1, ?_⟩
      intro fuel
      rw [search, if_neg (Nat.not_le.mpr (hsmall q hq)), if_neg hfreep]
      exact hm fuel

theorem search_takes (room : Calls → Nat → Bool) (p0 : Proc) (text : Nat) (h : FreeList s.mem base nodes)
    (hq : q ∈ nodes) (hk : (fun a => (s.mem a).ptr)^[k] q = s.freep) (hsize : n ≤ (s.mem s.freep).size) (hfuel : k < fuel)
    : ∃ c ∈ nodes, n ≤ (s.mem c).size ∧ ∃ prevp', search room p0 text n fuel prevp q s = .ok (take n prevp' c s) := by
  induction fuel generalizing prevp q k with
  | zero => omega
  | succ fuel ih =>
    rw [search]
    by_cases hlarge : (s.mem q).size ≥ n
    . rw [if_pos hlarge]
      exact ⟨q, hq, hlarge, prevp, rfl⟩
    . rw [if_neg hlarge]
      have hne : ¬ q = s.freep := by
        intro heq
        rw [heq] at hlarge
        exact hlarge hsize
      rw [if_neg hne]
      cases k with
      | zero => exact absurd hk hne
      | succ k =>
        have hk' : (fun a => (s.mem a).ptr)^[k] (s.mem q).ptr = s.freep := hk
        exact ih (h.ptr_mem hq) hk' (by omega)

theorem take_fst (prevp : Nat) (hlt : c + 8 * ((s.mem c).size - n) + 8 < 2 ^ 32)
    : (take n prevp c s).1 = c + 8 * ((s.mem c).size - n) + 8 ∧ (take n prevp c s).2.calls = s.calls := by
  unfold take
  split
  . next heq =>
    rw [heq, Nat.sub_self] at hlt ⊢
    exact ⟨Nat.mod_eq_of_lt hlt, rfl⟩
  . refine ⟨?_, rfl⟩
    dsimp only
    unfold next
    rw [setSize_size, Nat.mod_eq_of_lt (a := c + 8 * ((s.mem c).size - n)) (by omega), Nat.mod_eq_of_lt hlt]

theorem FreeList.ptr_eq_base {mem : Mem} (h : FreeList mem base nodes) (hq : q ∈ nodes) (hle : (mem q).ptr ≤ q)
    : (mem q).ptr = base := by
  obtain ⟨l1, l2, rfl⟩ := List.append_of_mem hq
  obtain ⟨-, hseg⟩ := seg_append.mp h.seg
  cases l2 with
  | nil => exact hseg
  | cons c l2 =>
    have hptr := hseg.1.ptr
    have hlt := hseg.1.lt
    have := le_next mem q
    omega

theorem findPlace_stops {mem : Mem} {bp a : Nat} (hfind : findPlace mem bp fuel q = some a)
    : (bp > a ∧ bp < (mem a).ptr) ∨ a ≥ (mem a).ptr := by
  rw [findPlace_eq] at hfind
  have hstop := Circuit.find_eq_some hfind
  rw [stops, decide_eq_true_iff] at hstop
  rcases hstop with hstop | hstop
  . exact .inl hstop
  . exact .inr hstop.1

theorem free_calls (fuel ap : Nat) (s : Heap) (calls : Calls)
    : Umalloc.free fuel ap { s with calls := calls } =
        (Umalloc.free fuel ap s).map fun s' => { s' with calls := calls } := by
  unfold Umalloc.free
  dsimp only
  cases findPlace s.mem (ap - 8) fuel s.freep with
  | none => rfl
  | some q => rfl

theorem noWrap_large {mem : Mem} {start : Nat} (h : FreeList s.mem base nodes)
    (hnext : ∀ a ∈ nodes, s.mem.next a ≤ sz ∧ a < sz) (hbase : base + 8 ≤ start) (hstart : start ≤ sz / PGSIZE * PGSIZE)
    (hsz : sz < KERNBASE) (hlo : 2 ^ 28 ≤ nu) (hhi : nu ≤ 2 ^ 29) (hkept : Kept sz nu)
    (hmem : mem = s.mem.setSize sz nu) (hfind : findPlace mem sz fuel s.freep = some q) (hq : q ∈ nodes)
    : NoWrap mem sz q := by
  have hqsz := (hnext q hq).2
  have hself : mem q = s.mem q := by
    rw [hmem, setSize_of_ne _ _ (Nat.ne_of_lt hqsz)]
  have hsize : (mem sz).size = nu := by
    rw [hmem, setSize_size]
  have hptr := (hnext _ (h.ptr_mem hq)).2
  have hqnext := (hnext q hq).1
  have hlast : (s.mem q).ptr = base := by
    apply FreeList.ptr_eq_base h hq
    have hstops := findPlace_stops hfind
    rw [hself] at hstops
    rcases hstops with hstops | hstops
    . omega
    . exact hstops
  unfold KERNBASE at hsz
  have hend : mem.next sz ≠ (mem q).ptr := by
    unfold Mem.next
    rw [hsize, hself]
    omega
  have hend' : next mem sz ≠ (mem q).ptr := by
    unfold next
    rw [hsize, hself, hlast]
    obtain ⟨-, hcase⟩ := hkept
    generalize sz / PGSIZE * PGSIZE = page at hstart hcase
    have := (hnext base h.base_mem).2
    rcases hcase with hcase | hcase | hcase <;> omega
  have hnextq : next mem q = mem.next q := by
    unfold next Mem.next at *
    rw [hself]
    exact Nat.mod_eq_of_lt (by omega)
  refine ⟨?_, fun heq => absurd heq hend, by rw [hnextq], ?_, Nat.ne_of_lt hqsz⟩
  . constructor
    . intro heq
      exact absurd heq hend'
    . intro heq
      exact absurd heq hend
  . intro _
    rw [joinUpper_self, if_neg hend, hsize, hself]
    unfold Mem.next at hqnext
    omega

end

section

variable {s : Heap} {live nodes : List Nat} {nu : Nat}

theorem nodes_bounds (hlayout : Layout p0 base text) (h : Inv base live nodes s) (hhistory : History room p0 s.calls)
    : ∀ a ∈ nodes, s.mem.next a ≤ (proc room p0 s.calls).sz ∧ a < (proc room p0 s.calls).sz := by
  have hbase := hlayout.base_le
  have hle := (hhistory.steady hlayout).le
  intro a ha
  have hnext := next_le h (fun r hr => (hhistory.regions_le hlayout r hr).2) (by omega) (List.mem_append_left live ha)
  refine ⟨hnext, ?_⟩
  by_cases heq : a = base
  . omega
  . have := h.list.pos a ha heq
    unfold Mem.next at hnext
    omega

theorem nodes_small (hlayout : Layout p0 base text) (h : Inv base live nodes s) (hhistory : History room p0 s.calls)
    (hlo : 2 ^ 28 ≤ nu)
    : ∀ a ∈ nodes, (s.mem a).size < nu := by
  intro a ha
  have hnext := (nodes_bounds hlayout h hhistory a ha).1
  have hlt := (hhistory.steady hlayout).lt
  unfold Mem.next KERNBASE at *
  omega

/-- The new block gets into the free list. -/
theorem free_large (hlayout : Layout p0 base text) (h : Inv base live nodes s) (hhistory : History room p0 s.calls)
    (hlo : 2 ^ 28 ≤ nu) (hhi : nu ≤ 2 ^ 29) (hkept : Kept (proc room p0 s.calls).sz nu) (calls : Calls)
    : ∃ s' nodes', Inv base live nodes' s' ∧
        s'.calls = (nu * 8, some (proc room p0 s.calls).sz) :: s.calls ∧
        (nu ≤ (s'.mem s'.freep).size ∨ nu ≤ (s'.mem (s'.mem s'.freep).ptr).size) ∧
        ∃ m, ∀ fuel, m ≤ fuel →
          free fuel ((proc room p0 s.calls).sz + 8)
            { s with mem := s.mem.setSize (proc room p0 s.calls).sz nu, calls := calls } =
              .ok { s' with calls := calls } := by
  have hsteady := hhistory.steady hlayout
  have hbounds := nodes_bounds hlayout h hhistory
  have hregions := hhistory.regions_le hlayout
  have hbase := hlayout.base_le
  have hle := hsteady.le
  have hlt := hsteady.lt
  have hpage := hsteady.start_le_page hlayout
  generalize (proc room p0 s.calls).sz = sz at *
  -- a call of `sbrk` that has returned the old break
  have hfresh : Fresh (fun c m => if c = s.calls ∧ m = nu * 8 then some sz else none) base := by
    refine ⟨hlayout.base_pos, ?_, ?_⟩
    . intro c m a ha
      split at ha
      . cases ha
        omega
      . cases ha
    . intro c m a ha r hr
      split at ha
      . next hc =>
        cases ha
        rw [hc.1] at hr
        exact (hregions r hr).2
      . cases ha
  have hgranted := h.granted (n := nu) (a := sz) hfresh (by omega) (if_pos ⟨rfl, rfl⟩)
  obtain ⟨s', hfreed, hsettles⟩ := free_live hgranted List.mem_cons_self
  obtain ⟨nodes', hinv⟩ := hgranted.freed List.mem_cons_self hfreed
  rw [List.erase_cons_head] at hinv
  have hsize := hfreed.size
  rw [setSize_size] at hsize
  obtain ⟨m, hm⟩ := hsettles.enough
  refine ⟨s', nodes', hinv, hfreed.calls, hsize, m, ?_⟩
  intro fuel hfuel
  have hap : sz + 8 < 2 ^ 32 := by
    unfold KERNBASE at hlt
    omega
  rw [free_eq fuel hap]
  . have := free_calls fuel (sz + 8)
      { s with mem := s.mem.setSize sz nu, calls := (nu * 8, some sz) :: s.calls } calls
    dsimp only at this
    rw [this, hm fuel hfuel]
    rfl
  . intro q hq
    have hmem := findPlace_mem hgranted.list h.freep hq
    exact noWrap_large h.list hbounds hbase hpage hlt hlo hhi hkept rfl hq hmem

theorem search_brought (room : Calls → Nat → Bool) (p0 : Proc) (text : Nat) (h : FreeList s.mem base nodes)
    (hfreep : s.freep ∈ nodes)
    (hsize : nu ≤ (s.mem s.freep).size ∨ nu ≤ (s.mem (s.mem s.freep).ptr).size)
    : ∃ k, ∀ fuel, k < fuel → ∃ c ∈ nodes, nu ≤ (s.mem c).size ∧
        ∃ prevp, search room p0 text nu fuel s.freep (s.mem s.freep).ptr s = .ok (take nu prevp c s) := by
  rcases hsize with hsize | hsize
  . obtain ⟨k, hk⟩ := h.reaches (h.ptr_mem hfreep) hfreep
    exact ⟨k, fun fuel hfuel => search_takes room p0 text h (h.ptr_mem hfreep) hk hsize hfuel⟩
  . refine ⟨0, ?_⟩
    intro fuel hfuel
    obtain ⟨fuel, rfl⟩ : ∃ f, fuel = f + 1 := ⟨fuel - 1, by omega⟩
    refine ⟨_, h.ptr_mem hfreep, hsize, s.freep, ?_⟩
    rw [search, if_pos hsize]

/-- `malloc` takes a block from there. -/
theorem search_large (hlayout : Layout p0 base text) (h : Inv base live nodes s) (hhistory : History room p0 s.calls)
    (hlo : 2 ^ 28 ≤ nu) (hhi : nu ≤ 2 ^ 29) (hkept : Kept (proc room p0 s.calls).sz nu)
    : ∃ fuel r s', search room p0 text nu fuel s.freep (s.mem s.freep).ptr s = .ok (r, s') ∧ 8 ≤ r ∧
        (proc room p0 s'.calls).sz ≤ (proc room p0 s.calls).sz := by
  have hsteady := hhistory.steady hlayout
  obtain ⟨k, hk⟩ := h.list.reaches (h.list.ptr_mem h.freep) h.freep
  obtain ⟨m, hm⟩ := search_more room p0 text s.freep h.list (nodes_small hlayout h hhistory hlo)
    (h.list.ptr_mem h.freep) hk
  obtain ⟨x, hsz, hx, hmore⟩ := morecore_kept hlayout hsteady hlo hhi hkept
  obtain ⟨s1, nodes1, hinv, hcalls, hsize, m1, hm1⟩ :=
    free_large hlayout h hhistory hlo hhi hkept ((nu * 8 % 2 ^ 32, x.2) :: s.calls)
  obtain ⟨k1, hk1⟩ := search_brought (s := { s1 with calls := (nu * 8 % 2 ^ 32, x.2) :: s.calls }) room p0 text
    hinv.list hinv.freep hsize
  obtain ⟨c, hc, hcsize, prevp, htake⟩ := hk1 (max m1 (k1 + 1)) (by omega)
  have hne : ¬ s1.freep = 0 := Nat.ne_of_gt (hinv.freep_pos hlayout.base_pos)
  have hsearch : search room p0 text nu (max m1 (k1 + 1) + m + 1) s.freep (s.mem s.freep).ptr s =
      .ok (take nu prevp c { s1 with calls := (nu * 8 % 2 ^ 32, x.2) :: s.calls }) := by
    rw [hm, hmore, hm1 _ (by omega)]
    change (if s1.freep = 0 then _ else _) = _
    rw [if_neg hne]
    exact htake
  have hend : s1.mem.next c ≤ (proc room p0 s.calls).sz + nu * 8 := by
    apply next_le_of_pos hinv _ (List.mem_append_left _ hc) (by dsimp only at hcsize; omega)
    intro r hr
    rw [hcalls] at hr
    rcases List.mem_cons.mp hr with rfl | hr
    . exact Nat.le_refl _
    . have := (hhistory.regions_le hlayout r hr).2
      omega
  have hlt := hsteady.lt
  unfold Mem.next KERNBASE at *
  dsimp only at hcsize
  obtain ⟨hfst, htcalls⟩ := take_fst (s := { s1 with calls := (nu * 8 % 2 ^ 32, x.2) :: s.calls }) (n := nu)
    (c := c) prevp (by dsimp only; omega)
  have hproc : proc room p0 ((nu * 8 % 2 ^ 32, x.2) :: s.calls) = x.1 := congrArg Prod.fst hx
  generalize take nu prevp c { s1 with calls := (nu * 8 % 2 ^ 32, x.2) :: s.calls } = result at *
  refine ⟨_, result.1, result.2, hsearch, ?_, ?_⟩
  . rw [hfst]
    exact Nat.le_add_left _ _
  . rw [htcalls, hproc]
    exact hsz

end

section

variable {t : Prog} {nbytes : UInt32}

/--
A request for more than the address space has, but for a number of bytes that `malloc` can still round up: `sbrk` does
not fail, it shrinks the process.
-/
theorem meets_of_large (hlayout : Layout p0 base text) (h : Good room p0 base t) (hlarge : 2 ^ 31 ≤ nbytes.toNat + 15)
    (hround : nbytes.toNat + 7 < 2 ^ 32)
    : Meets room p0 base text nbytes t.heap ↔ ¬ Kept (proc room p0 t.heap.calls).sz (nunits nbytes) := by
  obtain ⟨nodes, hinv⟩ := h.sound.init hlayout.base_pos
  have hhistory := h.history
  have hcalls := init_calls base t.heap
  rw [← hcalls] at hhistory ⊢
  have hunits := nunits_eq hround
  have hlo : 2 ^ 28 ≤ nunits nbytes := by omega
  have hhi : nunits nbytes ≤ 2 ^ 29 := by omega
  have hsteady := hhistory.steady hlayout
  constructor
  . intro hmeets hkept
    obtain ⟨fuel, r, s', hsearch, hr, hsz⟩ := search_large hlayout hinv hhistory hlo hhi hkept
    have hresult := hmeets fuel r s' hsearch
    rw [if_neg (by omega)] at hresult
    have hbreak := hresult.2
    have hdvd := hsteady.dvd
    have hlt := hsteady.lt
    unfold KERNBASE at hlt
    omega
  . intro hkept fuel r s' hmalloc
    have hsmall := nodes_small hlayout hinv hhistory hlo
    have hmore : ∀ fuel, morecore room p0 text fuel (nunits nbytes) (init base t.heap) = .error .killed :=
      fun fuel => morecore_killed hlayout hsteady hlo hhi hkept
    exact absurd hmalloc (search_killed hinv.list hsmall (hinv.list.ptr_mem hinv.freep) hmore (r, s'))

end

/-- When `malloc` keeps its promise. -/
def Harmless (room : Calls → Nat → Bool) (p0 : Proc) (base : Nat) (nbytes : UInt32) (s : Heap) : Prop :=
  if nbytes.toNat + 15 < 2 ^ 31 then True
  else if nbytes.toNat + 7 < 2 ^ 32 then ¬ Kept (proc room p0 s.calls).sz (nunits nbytes)
  else Empty base s ∧ (sysSbrk (room s.calls) (proc room p0 s.calls) 32768).2 = none

section

variable {t t' : Prog} {nbytes : UInt32} {e : Event} {r : Nat} {es : List Event} {mem : Mem}

theorem Good.meets_iff (hlayout : Layout p0 base text) (h : Good room p0 base t) (nbytes : UInt32)
    : Meets room p0 base text nbytes t.heap ↔ Harmless room p0 base nbytes t.heap := by
  unfold Harmless
  split
  . next hfits => exact iff_true_intro (meets_of_fits hlayout h hfits)
  . next hfits =>
    split
    . next hround => exact meets_of_large hlayout h (Nat.le_of_not_lt hfits) hround
    . next hround => exact meets_of_wrap hlayout h (Nat.le_of_not_lt hround)

theorem Good.malloc (h : Good room p0 base t) (hsmall : Small nbytes) {s' : Heap}
    (hmalloc : Umalloc.malloc (sbrk room p0) base fuel nbytes t.heap = some (r, s'))
    : History room p0 s'.calls := by
  have hhistory := h.history
  rw [← init_calls base t.heap] at hhistory
  exact search_history hsmall hhistory hmalloc

theorem free_calls_eq {ap : Nat} {s s' : Heap} (hfree : Umalloc.free fuel ap s = some s') : s'.calls = s.calls := by
  unfold Umalloc.free at hfree
  rw [Option.bind_eq_bind, Option.bind_eq_some_iff] at hfree
  obtain ⟨q, -, hfree⟩ := hfree
  cases hfree
  rfl

/-- The process does what `malloc` and `free` do without a bound on the addresses. -/
theorem step_eq (hlayout : Layout p0 base text) (h : Good room p0 base t) (e : Event)
    : step room p0 base text t e = Umalloc.step (sbrk room p0) base t e := by
  cases e with
  | malloc fuel nbytes =>
    simp only [step, Umalloc.step]
    by_cases hsmall : Small nbytes
    . rw [if_pos hsmall, if_pos hsmall, malloc_eq hlayout h hsmall]
      cases Umalloc.malloc (sbrk room p0) base fuel nbytes t.heap with
      | none => rfl
      | some x => rfl
    . rw [if_neg hsmall, if_neg hsmall]
  | free fuel ap =>
    simp only [step, Umalloc.step]
    by_cases hap : ap - 8 ∈ t.live ∧ ap ≥ 8
    . obtain ⟨nodes, hinv⟩ := h.sound.inv hap.1
      have hsteady := h.history.steady hlayout
      have hlt := hsteady.lt
      have hle := hsteady.le
      have hbase := hlayout.base_le
      have hregions : ∀ r ∈ regions t.heap.calls, r.start + r.length ≤ (proc room p0 t.heap.calls).sz :=
        fun r hr => (h.history.regions_le hlayout r hr).2
      have hend := next_le hinv hregions (by omega) (List.mem_append_right nodes hap.1)
      have hbp : ap - 8 + 8 < 2 ^ 32 := by
        unfold Mem.next KERNBASE at *
        omega
      have hfree := free_eq fuel hbp fun q hq =>
        noWrap hinv hregions (by omega) hlt hap.1 (findPlace_mem hinv.list hinv.freep hq)
      rw [Nat.sub_add_cancel hap.2] at hfree
      rw [if_pos hap, if_pos hap, hfree]
      cases Umalloc.free fuel ap t.heap with
      | none => rfl
      | some s' => rfl
    . rw [if_neg hap, if_neg hap]
  | store a v => rfl

theorem Good.step (hlayout : Layout p0 base text) (h : Good room p0 base t)
    (hstep : Umalloc.step (sbrk room p0) base t e = some (t', r))
    : Good room p0 base t' := by
  refine ⟨step_sound (fresh hlayout) h.sound hstep, ?_⟩
  cases e with
  | malloc fuel nbytes =>
    simp only [Umalloc.step] at hstep
    split at hstep
    . next hsmall =>
      rw [Option.bind_eq_bind, Option.bind_eq_some_iff] at hstep
      obtain ⟨⟨q, s'⟩, hmalloc, hstep⟩ := hstep
      cases hstep
      exact h.malloc hsmall hmalloc
    . cases hstep
  | free fuel ap =>
    simp only [Umalloc.step] at hstep
    split at hstep
    . rw [Option.bind_eq_bind, Option.bind_eq_some_iff] at hstep
      obtain ⟨s', hfree, hstep⟩ := hstep
      cases hstep
      dsimp only
      rw [free_calls_eq hfree]
      exact h.history
    . cases hstep
  | store a v =>
    simp only [Umalloc.step] at hstep
    split at hstep
    . cases hstep
      exact h.history
    . cases hstep

/-- After every run, and for every request. -/
theorem malloc_meets_iff (hlayout : Layout p0 base text)
    (hrun : Machine.run (step room p0 base text) (start mem) es = some t) (nbytes : UInt32)
    : Meets room p0 base text nbytes t.heap ↔ Harmless room p0 base nbytes t.heap := by
  have hgood : Good room p0 base t := by
    apply Machine.run_invariant' _ _ hrun
    . intro s e o s' h hstep
      rw [step_eq hlayout h] at hstep
      exact h.step hlayout hstep
    . exact ⟨.inl ⟨rfl, rfl, rfl⟩, trivial⟩
  exact hgood.meets_iff hlayout nbytes

-- A program of one page, with its stack and the page before it that it cannot use.
def onePage : Proc :=
  ⟨12288, fun i => i = 0 ∨ i = 2⟩

theorem onePage_layout : Layout onePage 4000 0 where
  aligned := by decide
  lt := by decide
  base_pos := by decide
  base_le := by decide
  mapped i hi := by
    have hpage : i = 0 ∨ i = 2 := of_decide_eq_true hi
    change i * 4096 < 12288
    omega
  text := rfl

theorem malloc_meets_iff_onePage
    : ∃ t, Machine.run (step (fun _ _ => true) onePage 4000 0) (start fun _ => ⟨0, 0⟩)
          [.malloc 8 100, .malloc 8 20, .free 8 44952] = some t ∧
        (Meets (fun _ _ => true) onePage 4000 0 0x7FFFFFF1 t.heap ↔
          Harmless (fun _ _ => true) onePage 4000 0x7FFFFFF1 t.heap) := by
  have hsome : (Machine.run (step (fun _ _ => true) onePage 4000 0) (start fun _ => ⟨0, 0⟩)
      [.malloc 8 100, .malloc 8 20, .free 8 44952]).isSome := by
    decide +kernel
  obtain ⟨t, ht⟩ := Option.isSome_iff_exists.mp hsome
  exact ⟨t, ht, malloc_meets_iff onePage_layout ht 0x7FFFFFF1⟩

-- The first request of a program gets a block of one unit.
theorem malloc_one_unit : ¬ Meets (fun _ _ => true) onePage 4000 0 0xFFFFFFFF (start fun _ => ⟨0, 0⟩).heap := by
  intro h
  have hresult : (malloc (fun _ _ => true) onePage 4000 0 8 0xFFFFFFFF (start fun _ => ⟨0, 0⟩).heap).map
      (fun x => (x.1, (proc (fun _ _ => true) onePage x.2.calls).sz)) = .ok (45056, 45056) := by
    decide +kernel
  cases hmalloc : malloc (fun _ _ => true) onePage 4000 0 8 0xFFFFFFFF (start fun _ => ⟨0, 0⟩).heap with
  | error _ =>
    rw [hmalloc] at hresult
    cases hresult
  | ok x =>
    rw [hmalloc] at hresult
    have hpair := Except.ok.inj hresult
    have hr : x.1 = 45056 := congrArg Prod.fst hpair
    have hsz : (proc (fun _ _ => true) onePage x.2.calls).sz = 45056 := congrArg Prod.snd hpair
    have hbound := h 8 x.1 x.2 hmalloc
    rw [if_neg (by rw [hr]; decide), hr, hsz] at hbound
    exact absurd hbound.2 (by decide)

end

end Xv6.Umalloc.Process
