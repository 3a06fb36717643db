import Xv6.Umalloc.Sbrk

/-!
While `sbrk` is only asked for more memory, no address wraps around and `malloc` does what it does without a bound on
the addresses.
-/

namespace Xv6.Umalloc.Process

open Tiling

variable {room : Calls → Nat → Bool} {p0 : Proc} {base text n : Nat}

section

variable {live nodes : List Nat} {s s' : Heap} {a bp fuel prevp q hi : Nat}

theorem next_le_of_pos (h : Inv base live nodes s) (hregions : ∀ r ∈ regions s.calls, r.start + r.length ≤ hi)
    (ha : a ∈ nodes ++ live) (hpos : 0 < (s.mem a).size)
    : s.mem.next a ≤ hi := by
  have hself : Tiling.cover (s.mem.next a - 1) [⟨a, 8 * (s.mem a).size⟩] = 1 := by
    rw [cover_singleton, if_pos]
    rw [covers_iff]
    unfold Mem.next
    dsimp only
    omega
  have hle := cover_blocks_of_mem (x := s.mem.next a - 1) s.mem ha
  rw [h.cover] at hle
  obtain ⟨r, hr, hcovers⟩ := cover_pos.mp (show 0 < Tiling.cover (s.mem.next a - 1) (regions s.calls) by omega)
  have := hregions r hr
  have := (covers_iff.mp hcovers).2
  unfold Mem.next at *
  omega

theorem next_le (h : Inv base live nodes s) (hregions : ∀ r ∈ regions s.calls, r.start + r.length ≤ hi)
    (hbase : base + 8 ≤ hi) (ha : a ∈ nodes ++ live)
    : s.mem.next a ≤ hi := by
  by_cases hpos : 0 < (s.mem a).size
  . exact next_le_of_pos h hregions ha hpos
  . rcases List.mem_append.mp ha with ha | ha
    . have heq : a = base := by
        by_contra hne
        exact hpos (h.list.pos a ha hne)
      unfold Mem.next
      rw [heq, h.list.base_size]
      omega
    . exact absurd (h.pos a ha) hpos

def orRounds {α : Type} : Option α → Except Stop α
  | none => .error .rounds
  | some x => .ok x

-- No sum in `free` wraps around, at least none that matters.
structure NoWrap (mem : Mem) (bp q : Nat) : Prop where
  upper : next mem bp = (mem q).ptr ↔ mem.next bp = (mem q).ptr
  upperSize : mem.next bp = (mem q).ptr → (mem bp).size + (mem (mem q).ptr).size < 2 ^ 32
  lower : next mem q = bp ↔ mem.next q = bp
  lowerSize : mem.next q = bp → (mem q).size + (Umalloc.joinUpper mem bp q bp).size < 2 ^ 32
  ne : q ≠ bp

theorem joinUpper_eq {mem : Mem} (h : NoWrap mem bp q) : joinUpper mem bp q = Umalloc.joinUpper mem bp q := by
  unfold joinUpper Umalloc.joinUpper
  by_cases heq : mem.next bp = (mem q).ptr
  . rw [if_pos heq, if_pos (h.upper.mpr heq), Nat.mod_eq_of_lt (h.upperSize heq)]
  . rw [if_neg heq, if_neg (fun hno => heq (h.upper.mp hno))]

theorem joinLower_eq {mem : Mem} (h : NoWrap mem bp q)
    : joinLower (Umalloc.joinUpper mem bp q) bp q = Umalloc.joinLower (Umalloc.joinUpper mem bp q) bp q := by
  have hself : Umalloc.joinUpper mem bp q q = mem q := joinUpper_of_ne mem q h.ne
  have hnext : next (Umalloc.joinUpper mem bp q) q = next mem q := by
    unfold next
    rw [hself]
  have hnext' : (Umalloc.joinUpper mem bp q).next q = mem.next q := by
    unfold Mem.next
    rw [hself]
  unfold joinLower Umalloc.joinLower
  rw [hnext, hnext', hself]
  by_cases heq : mem.next q = bp
  . rw [if_pos heq, if_pos (h.lower.mpr heq), Nat.mod_eq_of_lt (h.lowerSize heq)]
  . rw [if_neg heq, if_neg (fun hno => heq (h.lower.mp hno))]

theorem free_eq (fuel : Nat) (hbp : bp + 8 < 2 ^ 32)
    (h : ∀ q, findPlace s.mem bp fuel s.freep = some q → NoWrap s.mem bp q)
    : free fuel (bp + 8) s = orRounds (Umalloc.free fuel (bp + 8) s) := by
  have hsub : (bp + 8 + 2 ^ 32 - 8) % 2 ^ 32 = bp := by omega
  unfold free Umalloc.free
  rw [hsub, Nat.add_sub_cancel]
  dsimp only
  cases hfind : findPlace s.mem bp fuel s.freep with
  | none => rfl
  | some q =>
    have := h q hfind
    dsimp only
    rw [joinUpper_eq this, joinLower_eq this]
    rfl

theorem findPlace_mem {mem : Mem} (h : FreeList mem base nodes) (hq : q ∈ nodes)
    (hfind : findPlace mem bp fuel q = some a)
    : a ∈ nodes := by
  rw [findPlace_eq] at hfind
  exact Circuit.find_mem (fun a ha => h.ptr_mem ha) hq hfind

theorem next_eq {mem : Mem} (h : mem.next a ≤ hi) (hhi : hi < KERNBASE) : next mem a = mem.next a := by
  unfold Mem.next KERNBASE at *
  exact Nat.mod_eq_of_lt (by omega)

theorem noWrap (h : Inv base live nodes s) (hregions : ∀ r ∈ regions s.calls, r.start + r.length ≤ hi)
    (hbase : base + 8 ≤ hi) (hhi : hi < KERNBASE) (hb : bp ∈ live) (hq : q ∈ nodes)
    : NoWrap s.mem bp q := by
  have hnext : ∀ a ∈ nodes ++ live, s.mem.next a ≤ hi := fun a ha => next_le h hregions hbase ha
  have hbp := hnext bp (List.mem_append_right _ hb)
  have hqn := hnext q (List.mem_append_left _ hq)
  have hptr := hnext _ (List.mem_append_left _ (h.list.ptr_mem hq))
  have hne : q ≠ bp := by
    rintro rfl
    exact h.live_not_mem hb hq
  unfold KERNBASE at hhi
  refine ⟨by rw [next_eq hbp hhi], ?_, by rw [next_eq hqn hhi], ?_, hne⟩
  . intro heq
    unfold Mem.next at *
    omega
  . intro heq
    rw [joinUpper_self]
    unfold Mem.next at *
    split
    . dsimp only
      omega
    . dsimp only
      omega

theorem morecore_calls {sbrk : Calls → Nat → Option Nat} {r : Nat}
    (hmore : Umalloc.morecore sbrk fuel n s = some (r, s'))
    : s'.calls = ((if n < 4096 then 4096 else n) * 8 % 2 ^ 32,
        sbrk s.calls ((if n < 4096 then 4096 else n) * 8 % 2 ^ 32)) :: s.calls := by
  unfold Umalloc.morecore at hmore
  dsimp only at hmore
  split at hmore
  . next hnone =>
    cases hmore
    rfl
  . next a hsome =>
    rw [Option.bind_eq_bind, Option.bind_eq_some_iff] at hmore
    obtain ⟨s1, hfree, hmore⟩ := hmore
    cases hmore
    unfold Umalloc.free at hfree
    rw [Option.bind_eq_bind, Option.bind_eq_some_iff] at hfree
    obtain ⟨q, -, hfree⟩ := hfree
    cases hfree
    rfl

theorem History.morecore {r : Nat} (h : History room p0 s.calls) (hsmall : n * 8 < 2 ^ 31)
    (hmore : Umalloc.morecore (sbrk room p0) fuel n s = some (r, s'))
    : History room p0 s'.calls := by
  obtain ⟨nu, hnu⟩ : ∃ nu, nu = if n < 4096 then 4096 else n := ⟨_, rfl⟩
  obtain ⟨-, hpos, hlt, hmod⟩ := units_bounds hsmall hnu
  have hpos' : 0 < nu * 8 := by omega
  have hcalls := morecore_calls hmore
  rw [← hnu, hmod, sbrk_of_history h hpos' hlt] at hcalls
  rw [hcalls]
  exact ⟨hpos', hlt, ⟨nu, Nat.mul_comm _ _⟩, rfl, h⟩

-- A block for which `malloc` can ask without wrapping around.
theorem morecore_eq (hlayout : Layout p0 base text) (h : Inv base live nodes s) (hhistory : History room p0 s.calls)
    (hsmall : n * 8 < 2 ^ 31)
    : morecore room p0 text fuel n s = orRounds (Umalloc.morecore (sbrk room p0) fuel n s) := by
  obtain ⟨nu, hnu⟩ : ∃ nu, nu = if n < 4096 then 4096 else n := ⟨_, rfl⟩
  obtain ⟨-, hnupos, hlt, hmod⟩ := units_bounds hsmall hnu
  have hpos : 0 < nu * 8 := by omega
  have hsteady := hhistory.steady hlayout
  have hcalls : History room p0 ((nu * 8, (sysSbrk (room s.calls) (proc room p0 s.calls) (nu * 8)).2) :: s.calls) :=
    ⟨hpos, hlt, ⟨nu, Nat.mul_comm _ _⟩, rfl, hhistory⟩
  have hsteady' := hcalls.steady hlayout
  have hle := hsteady'.le
  have hsbrk := sbrk_of_history hhistory hpos hlt
  have htext : (proc room p0 ((nu * 8, (sysSbrk (room s.calls) (proc room p0 s.calls) (nu * 8)).2) :: s.calls)).mapped
      text = true := hsteady'.text
  unfold morecore Umalloc.morecore
  simp only [← hnu, hmod, htext, Bool.true_eq_false, if_false, hsbrk]
  cases hr : (sysSbrk (room s.calls) (proc room p0 s.calls) (nu * 8)).2 with
  | none => rfl
  | some hp =>
    rw [hr] at hcalls hsteady'
    have hgranted := h.granted (fresh hlayout) (show 0 < nu by omega) (hsbrk.trans hr)
    have hregions := hcalls.regions_le hlayout
    have hfirst := hregions ⟨hp, nu * 8⟩ List.mem_cons_self
    have hlt' := hsteady'.lt
    have hbase := hlayout.base_le
    have hmapped : (proc room p0 ((nu * 8, some hp) :: s.calls)).mapped (hp / PGSIZE) = true := by
      have haligned := hlayout.aligned
      rw [hsteady'.mapped]
      . unfold PGSIZE at *
        dsimp only at hfirst
        omega
      . unfold PGSIZE at *
        dsimp only at hfirst
        omega
    have hend : ∀ r ∈ regions ((nu * 8, some hp) :: s.calls),
        r.start + r.length ≤ (proc room p0 ((nu * 8, some hp) :: s.calls)).sz := fun r hr => (hregions r hr).2
    have hap : hp + 8 < 2 ^ 32 := by
      unfold KERNBASE at hlt'
      dsimp only at hfirst
      omega
    have hfree : free fuel (hp + 8) { s with mem := s.mem.setSize hp nu, calls := (nu * 8, some hp) :: s.calls } =
        orRounds (Umalloc.free fuel (hp + 8)
          { s with mem := s.mem.setSize hp nu, calls := (nu * 8, some hp) :: s.calls }) := by
      apply free_eq fuel hap
      intro q hq
      exact noWrap hgranted hend (by omega) hlt' List.mem_cons_self (findPlace_mem hgranted.list h.freep hq)
    simp only [hmapped, Bool.true_eq_false, if_false]
    rw [Nat.mod_eq_of_lt hap, hfree]
    cases Umalloc.free fuel (hp + 8) { s with mem := s.mem.setSize hp nu, calls := (nu * 8, some hp) :: s.calls } with
    | none => rfl
    | some s' => rfl

theorem take_eq (h : Inv base live nodes s) (hend : ∀ r ∈ regions s.calls, r.start + r.length ≤ hi)
    (hbase : base + 8 ≤ hi) (hhi : hi < KERNBASE) (hn : 0 < n) (hq : q ∈ nodes) (hsize : n ≤ (s.mem q).size)
    : take n prevp q s = Umalloc.take n prevp q s := by
  have hle := next_le h hend hbase (List.mem_append_left live hq)
  unfold Mem.next KERNBASE at *
  unfold take Umalloc.take
  split
  . rw [Nat.mod_eq_of_lt (by omega)]
  . have hnext : next (s.mem.setSize q ((s.mem q).size - n)) q = (s.mem.setSize q ((s.mem q).size - n)).next q := by
      unfold next Mem.next
      rw [setSize_size, Nat.mod_eq_of_lt (by omega)]
    dsimp only
    rw [hnext, Nat.mod_eq_of_lt]
    unfold Mem.next
    rw [setSize_size]
    omega

/-- Without a size that wraps around, `malloc` is the one of the earlier theorems. -/
theorem search_eq (hlayout : Layout p0 base text) (h : Inv base live nodes s) (hhistory : History room p0 s.calls)
    (hn : 0 < n) (hsmall : n * 8 < 2 ^ 31) (hprev : prevp ∈ nodes) (hptr : (s.mem prevp).ptr = q)
    : search room p0 text n fuel prevp q s = orRounds (Umalloc.search (sbrk room p0) n fuel prevp q s) := by
  induction fuel generalizing prevp q s nodes with
  | zero => rfl
  | succ fuel ih =>
    have hsteady := hhistory.steady hlayout
    have hle := hsteady.le
    have hbase := hlayout.base_le
    rw [search, Umalloc.search]
    split
    . next hsize =>
      rw [take_eq h (fun r hr => (hhistory.regions_le hlayout r hr).2) (by omega) hsteady.lt hn
        (hptr ▸ h.list.ptr_mem hprev) hsize]
      rfl
    . split
      . next hfreep =>
        rw [morecore_eq hlayout h hhistory hsmall]
        obtain ⟨r1, s1, hsettles, hmore⟩ := morecore_spec h (fresh hlayout) hsmall
        cases heq : Umalloc.morecore (sbrk room p0) fuel n s with
        | none => rfl
        | some x =>
          have hx := hsettles.only fuel x heq
          subst hx
          rcases hmore with ⟨rfl, -⟩ | hbrought
          . rfl
          . obtain ⟨nodes', hinv⟩ := hbrought.exists_nodes
            have hne : ¬ r1 = 0 := Nat.ne_of_gt hbrought.pos
            change (if r1 = 0 then Except.ok (0, s1) else search room p0 text n fuel r1 (s1.mem r1).ptr s1) =
              orRounds (if r1 = 0 then some (0, s1) else Umalloc.search (sbrk room p0) n fuel r1 (s1.mem r1).ptr s1)
            rw [if_neg hne, if_neg hne]
            exact ih hinv (hhistory.morecore hsmall heq) (hbrought.freep ▸ hinv.freep) rfl
      . exact ih h hhistory (hptr ▸ h.list.ptr_mem hprev) rfl

end

section

variable {sbrk : Calls → Nat → Option Nat} {live nodes : List Nat} {s s' : Heap} {a fuel k prevp q r : Nat}

theorem take_result {x : Nat × Heap} (h : Umalloc.take n prevp q s = x)
    : x.1 ≠ 0 ∧ (x.2.mem (x.1 - 8)).size = n ∧ x.2.calls = s.calls := by
  subst h
  unfold Umalloc.take
  split
  . next heq =>
    dsimp only
    rw [Nat.add_sub_cancel, setPtr_size]
    exact ⟨Nat.succ_ne_zero _, heq, rfl⟩
  . dsimp only
    rw [Nat.add_sub_cancel, setSize_size]
    exact ⟨Nat.succ_ne_zero _, rfl, rfl⟩

-- A block that is large enough is found without `morecore`.
theorem search_finds (hk : (fun a => (s.mem a).ptr)^[k] q = s.freep) (hsize : n ≤ (s.mem s.freep).size)
    (hsearch : Umalloc.search sbrk n fuel prevp q s = some (r, s'))
    : r ≠ 0 ∧ (s'.mem (r - 8)).size = n ∧ s'.calls = s.calls := by
  induction fuel generalizing prevp q k with
  | zero => cases hsearch
  | succ fuel ih =>
    rw [Umalloc.search] at hsearch
    split at hsearch
    . exact take_result (Option.some.inj hsearch)
    . next hsmall =>
      split at hsearch
      . next heq =>
        rw [heq] at hsmall
        exact absurd hsize hsmall
      . next hne =>
        cases k with
        | zero => exact absurd hk hne
        | succ k =>
          have hk' : (fun a => (s.mem a).ptr)^[k] (s.mem q).ptr = s.freep := hk
          exact ih hk' hsearch

theorem brought_finds (h : Brought base n live r s)
    (hsearch : Umalloc.search sbrk n fuel r (s.mem r).ptr s = some (a, s'))
    : a ≠ 0 ∧ (s'.mem (a - 8)).size = n ∧ s'.calls = s.calls := by
  obtain ⟨nodes, hinv⟩ := h.exists_nodes
  have hfreep := h.freep
  subst hfreep
  rcases h.size with hsize | hsize
  . obtain ⟨k, hk⟩ := hinv.list.reaches (hinv.list.ptr_mem hinv.freep) hinv.freep
    exact search_finds hk hsize hsearch
  . cases fuel with
    | zero => cases hsearch
    | succ fuel =>
      rw [Umalloc.search, if_pos hsize] at hsearch
      exact take_result (Option.some.inj hsearch)

/-- How the search ends: with a block, or with a call of `sbrk` that has failed behind the last block. -/
inductive Ends (sbrk : Calls → Nat → Option Nat) (n q : Nat) (s : Heap) : Nat → Heap → Prop where
  | block {r : Nat} {s' : Heap} (hne : r ≠ 0) (hsize : (s'.mem (r - 8)).size = n) : Ends sbrk n q s r s'
  | failed {m : Nat} (hm : m = (if n < 4096 then 4096 else n) * 8) (hsbrk : sbrk s.calls m = none)
      (hbefore : ∀ k, (∀ j < k, (fun a => (s.mem a).ptr)^[j] q ≠ s.freep) →
        (s.mem ((fun a => (s.mem a).ptr)^[k] q)).size < n)
      : Ends sbrk n q s 0 { s with calls := (m, none) :: s.calls }

theorem search_ends (hsbrk : Fresh sbrk base) (hsmall : n * 8 < 2 ^ 31) (h : Inv base live nodes s)
    (hsearch : Umalloc.search sbrk n fuel prevp q s = some (r, s'))
    : Ends sbrk n q s r s' := by
  induction fuel generalizing prevp q with
  | zero => cases hsearch
  | succ fuel ih =>
    rw [Umalloc.search] at hsearch
    split at hsearch
    . obtain ⟨hne, hsize, -⟩ := take_result (Option.some.inj hsearch)
      exact .block hne hsize
    . next hsize =>
      split at hsearch
      . next hfreep =>
        obtain ⟨m, hm⟩ : ∃ m, m = (if n < 4096 then 4096 else n) := ⟨_, rfl⟩
        cases hcall : sbrk s.calls (m * 8) with
        | none =>
          rw [morecore_refused hsmall hm hcall] at hsearch
          cases hsearch
          refine .failed (by rw [hm]) hcall ?_
          intro k hk
          cases k with
          | zero => exact Nat.lt_of_not_le hsize
          | succ k => exact absurd hfreep (hk 0 (Nat.succ_pos k))
        | some a =>
          obtain ⟨r1, s1, hsettles, hbrought⟩ := morecore_granted h hsbrk hsmall hm hcall
          cases heq : Umalloc.morecore sbrk fuel n s with
          | none =>
            rw [heq] at hsearch
            cases hsearch
          | some x =>
            rw [heq, hsettles.only fuel x heq] at hsearch
            change (if r1 = 0 then some (0, s1) else Umalloc.search sbrk n fuel r1 (s1.mem r1).ptr s1) =
              some (r, s') at hsearch
            rw [if_neg (Nat.ne_of_gt hbrought.pos)] at hsearch
            obtain ⟨hne, hsize, -⟩ := brought_finds hbrought hsearch
            exact .block hne hsize
      . next hne =>
        have hrest := ih hsearch
        cases hrest with
        | block hne hsize => exact .block hne hsize
        | failed hm hfail hbefore =>
          refine .failed hm hfail ?_
          intro k hk
          cases k with
          | zero => exact Nat.lt_of_not_le hsize
          | succ k =>
            apply hbefore k
            intro j hj
            exact hk (j + 1) (by omega)

theorem search_history (hsmall : n * 8 < 2 ^ 31) (h : History room p0 s.calls)
    (hsearch : Umalloc.search (Process.sbrk room p0) n fuel prevp q s = some (r, s'))
    : History room p0 s'.calls := by
  induction fuel generalizing prevp q s with
  | zero => cases hsearch
  | succ fuel ih =>
    rw [Umalloc.search] at hsearch
    split at hsearch
    . obtain ⟨-, -, hcalls⟩ := take_result (Option.some.inj hsearch)
      dsimp only at hcalls
      rwa [hcalls]
    . split at hsearch
      . rw [Option.bind_eq_bind, Option.bind_eq_some_iff] at hsearch
        obtain ⟨⟨r1, s1⟩, hmore, hsearch⟩ := hsearch
        have hhistory := h.morecore hsmall hmore
        dsimp only at hsearch
        split at hsearch
        . cases hsearch
          exact hhistory
        . exact ih hhistory hsearch
      . exact ih h hsearch

end

end Xv6.Umalloc.Process
