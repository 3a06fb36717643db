import Xv6.Umalloc.Malloc

/-!
The blocks of the program and the free blocks tile the memory that `sbrk` has returned, after every call of `malloc` and
`free`, and every loop comes to an end.
-/

namespace Xv6.Umalloc

open Outcome Tiling

variable {sbrk : Calls → Nat → Option Nat} {mem mem' : Mem} {base a b p prevp n x fuel : Nat} {nodes live : List Nat}
  {s s' : Heap}

def regions (calls : Calls) : List Block :=
  calls.filterMap fun c => c.2.map fun a => ⟨a, c.1⟩

-- `sbrk` returns regions behind all that it has returned, and behind the program's own data.
structure Fresh (sbrk : Calls → Nat → Option Nat) (base : Nat) : Prop where
  base_pos : 0 < base
  base_le : ∀ calls n a, sbrk calls n = some a → base + 8 ≤ a
  le : ∀ calls n a, sbrk calls n = some a → ∀ r ∈ regions calls, r.start + r.length ≤ a

structure Inv (base : Nat) (live nodes : List Nat) (s : Heap) : Prop where
  list : FreeList s.mem base nodes
  freep : s.freep ∈ nodes
  pos : ∀ a ∈ live, 0 < (s.mem a).size
  cover : ∀ x, cover x (blocks s.mem (nodes ++ live)) = cover x (regions s.calls)
  apart : ∀ x, Tiling.cover x (regions s.calls) ≤ 1
  base_le : ∀ r ∈ regions s.calls, base + 8 ≤ r.start

theorem cover_self (h : 0 < (mem a).size) : cover a [⟨a, 8 * (mem a).size⟩] = 1 := by
  rw [cover_singleton, if_pos]
  rw [covers_iff]
  dsimp only
  omega

theorem cover_blocks_of_mem (mem : Mem) {l : List Nat} (ha : a ∈ l)
    : cover x (blocks mem l) = cover x [⟨a, 8 * (mem a).size⟩] + cover x (blocks mem (l.erase a)) := by
  rw [← cover_blocks_cons]
  exact cover_perm ((List.perm_cons_erase ha).map _)

namespace Inv

theorem le_one (h : Inv base live nodes s) (x : Nat)
    : Tiling.cover x (blocks s.mem nodes) + Tiling.cover x (blocks s.mem live) ≤ 1 := by
  rw [← cover_blocks_append, h.cover]
  exact h.apart x

theorem exists_region (h : Inv base live nodes s) (ha : a ∈ nodes ++ live) (hpos : 0 < (s.mem a).size)
    : ∃ r ∈ regions s.calls, r.start ≤ a ∧ a < r.start + r.length := by
  have hself := cover_self hpos
  have hle := cover_blocks_of_mem (x := a) s.mem ha
  rw [h.cover] at hle
  obtain ⟨r, hr, hcovers⟩ := cover_pos.mp (show 0 < Tiling.cover a (regions s.calls) by omega)
  exact ⟨r, hr, covers_iff.mp hcovers⟩

theorem base_lt (h : Inv base live nodes s) (ha : a ∈ live) : base < a := by
  obtain ⟨r, hr, hle, -⟩ := h.exists_region (List.mem_append_right _ ha) (h.pos a ha)
  have := h.base_le r hr
  omega

theorem live_apart (h : Inv base live nodes s) (ha : a ∈ live) (hb : b ∈ nodes) (hbpos : 0 < (s.mem b).size)
    : s.mem.next b ≤ a ∨ s.mem.next a ≤ b := by
  have hpos := h.pos a ha
  by_contra hover
  rw [not_or, Nat.not_le, Nat.not_le] at hover
  have hle := h.le_one (max a b)
  rw [cover_blocks_of_mem s.mem ha, cover_blocks_of_mem s.mem hb, cover_singleton, cover_singleton, if_pos, if_pos] at hle
  . omega
  . rw [covers_iff]
    unfold Mem.next at hover
    dsimp only
    omega
  . rw [covers_iff]
    unfold Mem.next at hover
    dsimp only
    omega

theorem live_apart' (h : Inv base live nodes s) (ha : a ∈ live) (hb : b ∈ nodes)
    : s.mem.next b ≤ a ∨ s.mem.next a ≤ b := by
  by_cases hbase : b = base
  . left
    have := h.base_lt ha
    rw [hbase, Mem.next, h.list.base_size]
    omega
  . exact h.live_apart ha hb (h.list.pos b hb hbase)

theorem live_not_mem (h : Inv base live nodes s) (ha : a ∈ live) : a ∉ nodes := by
  intro hmem
  have := h.pos a ha
  have := h.live_apart' ha hmem
  unfold Mem.next at this
  omega

theorem not_mem_erase (h : Inv base live nodes s) (ha : a ∈ live) : a ∉ live.erase a := by
  intro hmem
  have hle := h.le_one a
  have hself := cover_self (h.pos a ha)
  rw [cover_blocks_of_mem s.mem ha, cover_blocks_of_mem s.mem hmem] at hle
  omega

theorem freed (h : Inv base live nodes s) (hb : b ∈ live) (hfreed : Freed base b nodes s s')
    : ∃ nodes', Inv base (live.erase b) nodes' s' := by
  obtain ⟨nodes', hlist, hfreep, hcover⟩ := hfreed.exists_nodes
  have hsame : ∀ a ∈ live.erase b, s'.mem a = s.mem a := by
    intro a ha
    apply hfreed.same a (h.live_not_mem (List.mem_of_mem_erase ha))
    rintro rfl
    exact h.not_mem_erase hb ha
  refine ⟨nodes', hlist, hfreep, ?_, ?_, ?_, ?_⟩
  . intro a ha
    rw [hsame a ha]
    exact h.pos a (List.mem_of_mem_erase ha)
  . intro x
    rw [cover_blocks_append, blocks_congr hsame, hcover, hfreed.calls, ← h.cover, cover_blocks_append,
      cover_blocks_of_mem s.mem hb]
    omega
  . rw [hfreed.calls]
    exact h.apart
  . rw [hfreed.calls]
    exact h.base_le

theorem taken (h : Inv base live nodes s) (hn : 0 < n) (htaken : Taken base n nodes s b s')
    : ∃ nodes', Inv base (b :: live) nodes' s' := by
  obtain ⟨nodes', hlist, hfreep, hcover⟩ := htaken.exists_nodes
  have hsize := htaken.size
  have hself : Tiling.cover b [⟨b, 8 * n⟩] = 1 := by
    rw [← hsize]
    exact cover_self (by omega)
  have hsame : ∀ a ∈ live, s'.mem a = s.mem a := by
    intro a ha
    apply htaken.same a (h.live_not_mem ha)
    rintro rfl
    have hle := h.le_one a
    have hself' := cover_self (h.pos a ha)
    rw [← hcover, cover_blocks_of_mem s.mem ha] at hle
    omega
  refine ⟨nodes', hlist, hfreep, ?_, ?_, ?_, ?_⟩
  . intro a ha
    rcases List.mem_cons.mp ha with rfl | ha
    . omega
    . rw [hsame a ha]
      exact h.pos a ha
  . intro x
    have := hcover x
    rw [cover_blocks_append, cover_blocks_cons, hsize, blocks_congr hsame, htaken.calls, ← h.cover, cover_blocks_append]
    omega
  . rw [htaken.calls]
    exact h.apart
  . rw [htaken.calls]
    exact h.base_le

theorem freep_pos (h : Inv base live nodes s) (hbase : 0 < base) : 0 < s.freep :=
  Nat.lt_of_lt_of_le hbase (h.list.base_le h.freep)

theorem refused (h : Inv base live nodes s) (n : Nat) : Inv base live nodes { s with calls := (n, none) :: s.calls } :=
  ⟨h.list, h.freep, h.pos, h.cover, h.apart, h.base_le⟩

theorem granted (h : Inv base live nodes s) (hsbrk : Fresh sbrk base) (hn : 0 < n) (ha : sbrk s.calls (n * 8) = some a)
    : Inv base (a :: live) nodes { s with mem := s.mem.setSize a n, calls := (n * 8, some a) :: s.calls } := by
  have hregions : regions ((n * 8, some a) :: s.calls) = ⟨a, n * 8⟩ :: regions s.calls := rfl
  have hold : ∀ b ∈ nodes ++ live, 0 < (s.mem b).size → b ≠ a := by
    rintro b hb hpos rfl
    obtain ⟨r, hr, -, hlt⟩ := h.exists_region hb hpos
    have := hsbrk.le _ _ _ ha r hr
    omega
  have hbase := hsbrk.base_le _ _ _ ha
  have hlist : ∀ b ∈ nodes, s.mem.setSize a n b = s.mem b := by
    intro b hb
    apply setSize_of_ne
    by_cases hbb : b = base
    . omega
    . exact hold b (List.mem_append_left _ hb) (h.list.pos b hb hbb)
  have hlive : ∀ b ∈ live, s.mem.setSize a n b = s.mem b := by
    intro b hb
    apply setSize_of_ne
    exact hold b (List.mem_append_right _ hb) (h.pos b hb)
  refine ⟨h.list.congr hlist, h.freep, ?_, ?_, ?_, ?_⟩
  . intro b hb
    rcases List.mem_cons.mp hb with rfl | hb
    . rwa [setSize_size]
    . dsimp only
      rw [hlive b hb]
      exact h.pos b hb
  . intro x
    dsimp only
    have hcover := h.cover x
    rw [cover_blocks_append] at hcover
    rw [hregions, cover_cons, cover_blocks_append, cover_blocks_cons, blocks_congr hlist, blocks_congr hlive, setSize_size,
      ← hcover, Nat.mul_comm n 8]
    omega
  . intro x
    dsimp only
    rw [hregions]
    apply cover_cons_le h.apart
    rintro r hr y ⟨hy, hry⟩
    have := hsbrk.le _ _ _ ha r hr
    rw [covers_iff] at hy hry
    dsimp only at hy
    omega
  . intro r hr
    dsimp only at hr
    rw [hregions] at hr
    rcases List.mem_cons.mp hr with rfl | hr
    . exact hbase
    . exact h.base_le r hr

end Inv

theorem free_live (h : Inv base live nodes s) (hb : b ∈ live)
    : ∃ s', Freed base b nodes s s' ∧ Settles (fun fuel => free fuel (b + 8) s) s' := by
  apply free_spec h.list h.freep (h.base_lt hb) (h.pos b hb)
  intro a ha
  exact h.live_apart' hb ha

-- What `morecore` brings.
structure Brought (base n : Nat) (live : List Nat) (r : Nat) (s : Heap) : Prop where
  pos : 0 < r
  freep : s.freep = r
  exists_nodes : ∃ nodes, Inv base live nodes s
  size : n ≤ (s.mem r).size ∨ n ≤ (s.mem (s.mem r).ptr).size

theorem units_bounds {nu : Nat} (hsmall : n * 8 < 2 ^ 31) (hnu : nu = if n < 4096 then 4096 else n)
    : n ≤ nu ∧ 0 < nu ∧ nu * 8 < 2 ^ 31 ∧ nu * 8 % 2 ^ 32 = nu * 8 := by
  split at hnu <;> omega

theorem morecore_refused {nu : Nat} (hsmall : n * 8 < 2 ^ 31) (hnu : nu = if n < 4096 then 4096 else n)
    (hcall : sbrk s.calls (nu * 8) = none) (fuel : Nat)
    : morecore sbrk fuel n s = some (0, { s with calls := (nu * 8, none) :: s.calls }) := by
  obtain ⟨-, -, -, hmod⟩ := units_bounds hsmall hnu
  simp only [morecore, ← hnu, hmod, hcall]

theorem morecore_granted {nu : Nat} (h : Inv base live nodes s) (hsbrk : Fresh sbrk base) (hsmall : n * 8 < 2 ^ 31)
    (hnu : nu = if n < 4096 then 4096 else n) (hcall : sbrk s.calls (nu * 8) = some a)
    : ∃ r s', Settles (fun fuel => morecore sbrk fuel n s) (r, s') ∧ Brought base n live r s' := by
  obtain ⟨hle, hpos, -, hmod⟩ := units_bounds hsmall hnu
  have hgranted := h.granted hsbrk hpos hcall
  obtain ⟨s', hfreed, hsettles⟩ := free_live hgranted List.mem_cons_self
  obtain ⟨nodes', hinv⟩ := hgranted.freed List.mem_cons_self hfreed
  rw [List.erase_cons_head] at hinv
  refine ⟨s'.freep, s', ?_, ⟨hinv.freep_pos hsbrk.base_pos, rfl, ⟨nodes', hinv⟩, ?_⟩⟩
  . apply hsettles.map
    . intro k hk
      simp only [morecore, ← hnu, hmod, hcall, hk]
      rfl
    . intro k hk
      simp only [morecore, ← hnu, hmod, hcall, hk]
      rfl
  . have hsize := hfreed.size
    rw [setSize_size] at hsize
    omega

theorem morecore_spec (h : Inv base live nodes s) (hsbrk : Fresh sbrk base) (hsmall : n * 8 < 2 ^ 31)
    : ∃ r s', Settles (fun fuel => morecore sbrk fuel n s) (r, s') ∧
        ((r = 0 ∧ Inv base live nodes s') ∨ Brought base n live r s') := by
  obtain ⟨nu, hnu⟩ : ∃ nu, nu = if n < 4096 then 4096 else n := ⟨_, rfl⟩
  cases hcall : sbrk s.calls (nu * 8) with
  | none =>
    have hmore := morecore_refused hsmall hnu hcall
    refine ⟨_, _, ⟨?_, 0, fun k _ => hmore k⟩, .inl ⟨rfl, h.refused _⟩⟩
    intro k r hr
    rw [hmore k] at hr
    cases hr
    rfl
  | some hp =>
    obtain ⟨r, s', hsettles, hbrought⟩ := morecore_granted h hsbrk hsmall hnu hcall
    exact ⟨r, s', hsettles, .inr hbrought⟩

-- The rounds of the loop that find a block, and those that ask for one.
theorem search_sound (hsbrk : Fresh sbrk base) (hn : 0 < n) (hsmall : n * 8 < 2 ^ 31) {r : Nat}
    (h : Inv base live nodes s) (hprev : prevp ∈ nodes) (hptr : (s.mem prevp).ptr = p)
    (hsearch : search sbrk n fuel prevp p s = some (r, s'))
    : ∃ nodes', (r = 0 ∧ Inv base live nodes' s') ∨ ∃ b, r = b + 8 ∧ Inv base (b :: live) nodes' s' := by
  induction fuel generalizing prevp p s nodes with
  | zero => cases hsearch
  | succ fuel ih =>
    rw [search] at hsearch
    split at hsearch
    . next hsize =>
      obtain ⟨b, heap, htake, htaken⟩ := take_spec h.list hprev hptr hn hsize
      rw [htake] at hsearch
      cases hsearch
      obtain ⟨nodes', hinv⟩ := h.taken hn htaken
      exact ⟨nodes', .inr ⟨b, rfl, hinv⟩⟩
    . split at hsearch
      . next hfreep =>
        obtain ⟨r1, s1, hsettles, hmore⟩ := morecore_spec h hsbrk hsmall
        cases heq : morecore sbrk fuel n s with
        | none =>
          rw [heq] at hsearch
          cases hsearch
        | some x =>
          rw [heq, hsettles.only fuel x heq] at hsearch
          rcases hmore with ⟨rfl, hinv⟩ | hbrought
          . cases hsearch
            exact ⟨nodes, .inl ⟨rfl, hinv⟩⟩
          . obtain ⟨nodes', hinv⟩ := hbrought.exists_nodes
            change (if r1 = 0 then some (0, s1) else search sbrk n fuel r1 (s1.mem r1).ptr s1) = some (r, s') at hsearch
            rw [if_neg (Nat.ne_of_gt hbrought.pos)] at hsearch
            exact ih hinv (hbrought.freep ▸ hinv.freep) rfl hsearch
      . exact ih h (hptr ▸ h.list.ptr_mem hprev) rfl hsearch

theorem search_isSome {k : Nat} (hk : (fun a => (s.mem a).ptr)^[k] p = s.freep) (hsize : n ≤ (s.mem s.freep).size)
    (hfuel : k < fuel)
    : (search sbrk n fuel prevp p s).isSome := by
  induction fuel generalizing prevp p k with
  | zero => omega
  | succ fuel ih =>
    rw [search]
    split
    . rfl
    . next hsmall =>
      split
      . next heq =>
        rw [heq] at hsmall
        exact absurd hsize hsmall
      . next hne =>
        cases k with
        | zero => exact absurd hk hne
        | succ k => exact ih hk (by omega)

theorem Brought.search_isSome {r : Nat} (h : Brought base n live r s)
    : ∃ k, ∀ fuel, k ≤ fuel → (search sbrk n fuel r (s.mem r).ptr s).isSome := by
  obtain ⟨nodes, hinv⟩ := h.exists_nodes
  have hfreep := h.freep
  subst hfreep
  rcases h.size with hsize | hsize
  . obtain ⟨k, hk⟩ := hinv.list.reaches (hinv.list.ptr_mem hinv.freep) hinv.freep
    exact ⟨k + 1, fun fuel hfuel => Umalloc.search_isSome hk hsize hfuel⟩
  . refine ⟨1, ?_⟩
    intro fuel hfuel
    cases fuel with
    | zero => omega
    | succ fuel =>
      rw [search, if_pos hsize]
      rfl

theorem morecore_isSome (h : Inv base live nodes s) (hsbrk : Fresh sbrk base) (hsmall : n * 8 < 2 ^ 31)
    : ∃ m, ∀ fuel, m ≤ fuel →
        (do
          let (p, s) ← morecore sbrk fuel n s
          if p = 0 then return (0, s) else search sbrk n fuel p (s.mem p).ptr s).isSome := by
  obtain ⟨r, s1, hsettles, hmore⟩ := morecore_spec h hsbrk hsmall
  obtain ⟨m, hm⟩ := hsettles.enough
  rcases hmore with ⟨rfl, -⟩ | hbrought
  . refine ⟨m, ?_⟩
    intro fuel hfuel
    have heq : morecore sbrk fuel n s = some (0, s1) := hm fuel hfuel
    rw [heq]
    rfl
  . have hsearch : ∃ m, ∀ fuel, m ≤ fuel → (search sbrk n fuel r (s1.mem r).ptr s1).isSome := hbrought.search_isSome
    obtain ⟨m', hm'⟩ := hsearch
    refine ⟨max m m', ?_⟩
    intro fuel hfuel
    have heq : morecore sbrk fuel n s = some (r, s1) := hm fuel (by omega)
    rw [heq]
    change (if r = 0 then some (0, s1) else search sbrk n fuel r (s1.mem r).ptr s1).isSome
    rw [if_neg (Nat.ne_of_gt hbrought.pos)]
    exact hm' fuel (by omega)

theorem search_terminates (h : Inv base live nodes s) (hsbrk : Fresh sbrk base) (hsmall : n * 8 < 2 ^ 31) {k : Nat}
    (hk : (fun a => (s.mem a).ptr)^[k] p = s.freep)
    : ∃ m, ∀ fuel, m ≤ fuel → (search sbrk n fuel prevp p s).isSome := by
  obtain ⟨m, hm⟩ := morecore_isSome (n := n) h hsbrk hsmall
  refine ⟨m + k + 1, ?_⟩
  intro fuel hfuel
  induction fuel generalizing prevp p k with
  | zero => omega
  | succ fuel ih =>
    rw [search]
    split
    . rfl
    . split
      . exact hm fuel (by omega)
      . next hne =>
        cases k with
        | zero => exact absurd hk hne
        | succ k => exact ih hk (by omega)

theorem nunits_pos (nbytes : UInt32) : 0 < nunits nbytes := by
  have hlt := (nbytes + 8 - 1).toNat_lt
  have h8 : (8 : UInt32).toNat = 8 := rfl
  have h1 : (1 : UInt32).toNat = 1 := rfl
  unfold nunits
  rw [UInt32.toNat_add, UInt32.toNat_div, h8, h1]
  omega

-- Nothing has been allocated yet, or the free list and the program's blocks tile the heap.
def Sound (base : Nat) (t : Prog) : Prop :=
  (t.heap.freep = 0 ∧ t.heap.calls = [] ∧ t.live = []) ∨ ∃ nodes, Inv base t.live nodes t.heap

variable {t t' : Prog}

theorem Sound.init (h : Sound base t) (hbase : 0 < base) : ∃ nodes, Inv base t.live nodes (init base t.heap) := by
  unfold Umalloc.init
  rcases h with ⟨hfreep, hcalls, hlive⟩ | ⟨nodes, hinv⟩
  . rw [if_pos hfreep, hlive]
    refine ⟨[base], ⟨rfl, ?_, setSize_size _ _ _, ?_⟩, List.mem_singleton_self _, by simp, ?_, ?_, ?_⟩
    . simp [Seg]
    . simp
    . intro x
      rw [List.append_nil, cover_blocks_cons, setSize_size, hcalls]
      exact cover_zero base
    . simp [hcalls, regions]
    . simp [hcalls, regions]
  . rw [if_neg (Nat.ne_of_gt (hinv.freep_pos hbase))]
    exact ⟨nodes, hinv⟩

theorem Sound.inv (h : Sound base t) (hb : b ∈ t.live) : ∃ nodes, Inv base t.live nodes t.heap := by
  rcases h with ⟨-, -, hlive⟩ | hinv
  . rw [hlive] at hb
    cases hb
  . exact hinv

theorem Inv.store (h : Inv base live nodes s) (hb : b ∈ live) (hlt : b < a) (hnext : a < s.mem.next b) (v : Header)
    : Inv base live nodes { s with mem := Function.update s.mem a v } := by
  have hself := h.pos b hb
  have hcovers : Tiling.cover a [⟨b, 8 * (s.mem b).size⟩] = 1 := by
    rw [cover_singleton, if_pos]
    rw [covers_iff]
    unfold Mem.next at hnext
    dsimp only
    omega
  have hle := h.le_one a
  have hnodes : ∀ c ∈ nodes, Function.update s.mem a v c = s.mem c := by
    intro c hc
    apply Function.update_of_ne
    rintro rfl
    have hbase := h.base_lt hb
    have hpos := cover_self (h.list.pos c hc (by omega))
    rw [cover_blocks_of_mem s.mem hb, cover_blocks_of_mem s.mem hc] at hle
    omega
  have hlive : ∀ c ∈ live, Function.update s.mem a v c = s.mem c := by
    intro c hc
    apply Function.update_of_ne
    rintro rfl
    have hpos := cover_self (h.pos c hc)
    have hmem : c ∈ live.erase b := (List.mem_erase_of_ne (by omega)).mpr hc
    rw [cover_blocks_of_mem s.mem hb, cover_blocks_of_mem s.mem hmem] at hle
    omega
  refine ⟨h.list.congr hnodes, h.freep, ?_, ?_, h.apart, h.base_le⟩
  . intro c hc
    dsimp only
    rw [hlive c hc]
    exact h.pos c hc
  . intro x
    rw [← h.cover, cover_blocks_append, cover_blocks_append]
    dsimp only
    rw [blocks_congr hnodes, blocks_congr hlive]

theorem step_sound (hsbrk : Fresh sbrk base) {e : Event} {r : Nat} (h : Sound base t)
    (hstep : step sbrk base t e = some (t', r))
    : Sound base t' := by
  cases e with
  | malloc fuel nbytes =>
    simp only [step] at hstep
    split at hstep
    . next hsmall =>
      cases heq : malloc sbrk base fuel nbytes t.heap with
      | none =>
        rw [heq] at hstep
        cases hstep
      | some x =>
        obtain ⟨p, heap⟩ := x
        rw [heq] at hstep
        cases hstep
        obtain ⟨nodes, hinv⟩ := h.init hsbrk.base_pos
        obtain ⟨nodes', hsearch⟩ := search_sound hsbrk (nunits_pos nbytes) hsmall hinv hinv.freep rfl heq
        rcases hsearch with ⟨rfl, hinv'⟩ | ⟨b, rfl, hinv'⟩
        . exact .inr ⟨nodes', hinv'⟩
        . exact .inr ⟨nodes', hinv'⟩
    . cases hstep
  | free fuel ap =>
    simp only [step] at hstep
    split at hstep
    . next hap =>
      cases heq : free fuel ap t.heap with
      | none =>
        rw [heq] at hstep
        cases hstep
      | some heap =>
        rw [heq] at hstep
        cases hstep
        obtain ⟨nodes, hinv⟩ := h.inv hap.1
        obtain ⟨s', hfreed, hsettles⟩ := free_live hinv hap.1
        rw [Nat.sub_add_cancel hap.2] at hsettles
        rw [hsettles.only fuel heap heq]
        exact .inr (hinv.freed hap.1 hfreed)
    . cases hstep
  | store a v =>
    simp only [step] at hstep
    split at hstep
    . next howns =>
      cases hstep
      obtain ⟨b, hb, hlt, hnext⟩ := howns
      obtain ⟨nodes, hinv⟩ := h.inv hb
      exact .inr ⟨nodes, hinv.store hb hlt hnext v⟩
    . cases hstep

-- No call loops for ever.
def Terminates (sbrk : Calls → Nat → Option Nat) (base : Nat) (t : Prog) : Prop :=
  (∀ nbytes, Small nbytes → ∃ n, ∀ fuel, n ≤ fuel → (step sbrk base t (.malloc fuel nbytes)).isSome) ∧
    ∀ b ∈ t.live, ∃ n, ∀ fuel, n ≤ fuel → (step sbrk base t (.free fuel (b + 8))).isSome

theorem Sound.terminates (h : Sound base t) (hsbrk : Fresh sbrk base) : Terminates sbrk base t := by
  constructor
  . intro nbytes hsmall
    obtain ⟨nodes, hinv⟩ := h.init hsbrk.base_pos
    obtain ⟨k, hk⟩ := hinv.list.reaches (hinv.list.ptr_mem hinv.freep) hinv.freep
    have hsearch : ∃ m, ∀ fuel, m ≤ fuel → (malloc sbrk base fuel nbytes t.heap).isSome :=
      search_terminates hinv hsbrk hsmall hk
    obtain ⟨m, hm⟩ := hsearch
    refine ⟨m, ?_⟩
    intro fuel hfuel
    obtain ⟨x, hx⟩ := Option.isSome_iff_exists.mp (hm fuel hfuel)
    simp only [step, if_pos hsmall, hx]
    rfl
  . intro b hb
    obtain ⟨nodes, hinv⟩ := h.inv hb
    obtain ⟨s', -, hsettles⟩ := free_live hinv hb
    obtain ⟨m, hm⟩ := hsettles.enough
    refine ⟨m, ?_⟩
    intro fuel hfuel
    have hfree : free fuel (b + 8) t.heap = some s' := hm fuel hfuel
    have hap : b + 8 - 8 ∈ t.live ∧ b + 8 ≥ 8 := ⟨hb, Nat.le_add_left 8 b⟩
    simp only [step, if_pos hap, hfree]
    rfl

def start (mem : Mem) : Prog :=
  ⟨⟨mem, 0, []⟩, []⟩

theorem heap_tiled (hsbrk : Fresh sbrk base) {es : List Event} (hrun : Machine.run (step sbrk base) (start mem) es = some t)
    : ((t.heap.freep = 0 ∧ t.heap.calls = [] ∧ t.live = []) ∨
        ∃ nodes, FreeList t.heap.mem base nodes ∧ t.heap.freep ∈ nodes ∧
          Tiles (blocks t.heap.mem (nodes ++ t.live)) (regions t.heap.calls)) ∧
      Terminates sbrk base t := by
  have hsound : Sound base t := by
    apply Machine.run_invariant' _ _ hrun
    . intro s e o s' h hstep
      exact step_sound hsbrk h hstep
    . exact .inl ⟨rfl, rfl, rfl⟩
  refine ⟨?_, hsound.terminates hsbrk⟩
  rcases hsound with hidle | ⟨nodes, hinv⟩
  . exact .inl hidle
  . exact .inr ⟨nodes, hinv.list, hinv.freep, tiles_of_cover hinv.cover hinv.apart⟩

-- `sbrk` with nothing else that grows the process.
def grow (calls : Calls) (_ : Nat) : Option Nat :=
  some ((regions calls).foldr (fun r a => max (r.start + r.length) a) 16)

theorem le_foldr {l : List Block} {r : Block} (h : r ∈ l)
    : r.start + r.length ≤ l.foldr (fun r a => max (r.start + r.length) a) 16 := by
  induction l with
  | nil => cases h
  | cons c l ih =>
    rw [List.foldr_cons]
    rcases List.mem_cons.mp h with rfl | h
    . exact Nat.le_max_left _ _
    . exact Nat.le_trans (ih h) (Nat.le_max_right _ _)

theorem le_foldr_start (l : List Block) : 16 ≤ l.foldr (fun r a => max (r.start + r.length) a) 16 := by
  induction l with
  | nil => exact Nat.le_refl 16
  | cons c l ih => exact Nat.le_trans ih (Nat.le_max_right _ _)

theorem grow_fresh : Fresh grow 8 where
  base_pos := by decide
  base_le := by
    rintro calls n a ⟨⟩
    exact le_foldr_start _
  le := by
    rintro calls n a ⟨⟩ r hr
    exact le_foldr hr

theorem heap_tiled_twoBlocks
    : ∃ t, Machine.run (step grow 8) (start fun _ => ⟨0, 0⟩) [.malloc 8 100, .malloc 8 20, .free 8 32680] = some t ∧
        (((t.heap.freep = 0 ∧ t.heap.calls = [] ∧ t.live = []) ∨
          ∃ nodes, FreeList t.heap.mem 8 nodes ∧ t.heap.freep ∈ nodes ∧
            Tiles (blocks t.heap.mem (nodes ++ t.live)) (regions t.heap.calls)) ∧
          Terminates grow 8 t) := by
  have hsome : (Machine.run (step grow 8) (start fun _ => ⟨0, 0⟩) [.malloc 8 100, .malloc 8 20, .free 8 32680]).isSome := by
    decide +kernel
  obtain ⟨t, ht⟩ := Option.isSome_iff_exists.mp hsome
  exact ⟨t, ht, heap_tiled grow_fresh ht⟩

end Xv6.Umalloc
