import Xv6.Lib.Outcome
import Xv6.Umalloc.FreeList

/-!
`free` finds the place of the block and joins it with the free blocks that it touches.
-/

namespace Xv6.Umalloc

open Outcome Tiling

variable {mem mem' : Mem} {base e a b p q bp fuel n x : Nat} {l l1 l2 nodes : List Nat}

def stops (mem : Mem) (bp p : Nat) : Bool :=
  (bp > p ∧ bp < (mem p).ptr) ∨ (p ≥ (mem p).ptr ∧ (bp > p ∨ bp < (mem p).ptr))

theorem findPlace_eq (mem : Mem) (bp fuel p : Nat)
    : findPlace mem bp fuel p = Circuit.find (fun a => (mem a).ptr) (stops mem bp) fuel p := by
  induction fuel generalizing p with
  | zero => rfl
  | succ fuel ih =>
    rw [findPlace, Circuit.find, ih]
    by_cases h1 : bp > p ∧ bp < (mem p).ptr
    . have hstop : stops mem bp p = true := by simp [stops, h1]
      rw [if_pos h1, if_pos hstop]
    . rw [if_neg h1]
      by_cases h2 : p ≥ (mem p).ptr ∧ (bp > p ∨ bp < (mem p).ptr)
      . have hstop : stops mem bp p = true := by
          rw [stops, decide_eq_true_iff]
          exact .inr h2
        rw [if_pos h2, if_pos hstop]
      . have hgo : ¬ stops mem bp p = true := by
          rw [stops, decide_eq_true_iff]
          exact not_or.mpr ⟨h1, h2⟩
        rw [if_neg h2, if_neg hgo]

theorem Seg.exists_place (h : Seg mem e (a :: l)) (ha : a < bp) (hbp : bp ∉ l)
    : ∃ l1 p l2, a :: l = l1 ++ p :: l2 ∧ p < bp ∧ ∀ c ∈ l2, bp < c := by
  induction l generalizing a with
  | nil => exact ⟨[], a, [], rfl, ha, by simp⟩
  | cons b l ih =>
    rw [List.mem_cons, not_or] at hbp
    rcases Nat.lt_or_gt_of_ne hbp.1 with hlt | hgt
    . refine ⟨[], a, b :: l, rfl, ha, ?_⟩
      intro c hc
      rcases List.mem_cons.mp hc with rfl | hc
      . exact hlt
      . have := h.2.lt c hc
        have := le_next mem b
        omega
    . obtain ⟨l1, p, l2, heq, hp, hl2⟩ := ih h.2 hgt hbp.2
      exact ⟨a :: l1, p, l2, by rw [heq, List.cons_append], hp, hl2⟩

theorem Lead.not_stops (h : Lead mem p l) (hp : p < bp) : ∀ a ∈ l, ¬ stops mem bp a := by
  induction l with
  | nil => simp
  | cons a l ih =>
    have hedge : ∀ b, Edge mem a b → b < bp → ¬ stops mem bp a := by
      intro b hab hb
      have := hab.lt
      have := le_next mem a
      rw [stops, decide_eq_true_iff, hab.ptr]
      omega
    intro c hc
    cases l with
    | nil =>
      rw [List.mem_singleton.mp hc]
      exact hedge p h hp
    | cons b l =>
      rcases List.mem_cons.mp hc with rfl | hc
      . have := h.2.lt b List.mem_cons_self
        have := le_next mem b
        exact hedge b h.1 (by omega)
      . exact ih h.2 c hc

theorem Seg.not_stops (h : Seg mem e l) (he : e < bp) (hl : ∀ a ∈ l, bp < a) : ∀ a ∈ l, ¬ stops mem bp a := by
  induction l with
  | nil => simp
  | cons a l ih =>
    have ha := hl a List.mem_cons_self
    intro c hc
    rcases List.mem_cons.mp hc with rfl | hc
    . cases l with
      | nil =>
        have hptr : (mem c).ptr = e := h
        rw [stops, decide_eq_true_iff, hptr]
        omega
      | cons b l =>
        rw [stops, decide_eq_true_iff, h.1.ptr]
        have := hl b (by simp)
        have := h.1.lt
        have := le_next mem c
        omega
    . cases l with
      | nil => cases hc
      | cons b l => exact ih h.2 (fun d hd => hl d (List.mem_cons_of_mem a hd)) c hc

theorem Seg.stops (h : Seg mem e (p :: l)) (he : e ≤ p) (hp : p < bp) (hl : ∀ a ∈ l, bp < a) : stops mem bp p := by
  rw [Umalloc.stops, decide_eq_true_iff]
  cases l with
  | nil =>
    have hptr : (mem p).ptr = e := h
    rw [hptr]
    exact .inr ⟨he, .inl hp⟩
  | cons b l =>
    rw [h.1.ptr]
    exact .inl ⟨hp, hl b List.mem_cons_self⟩

theorem Seg.tail (h : Seg mem e (a :: l)) : Seg mem e l := by
  cases l with
  | nil => trivial
  | cons b l => exact h.2

theorem FreeList.findPlace (h : FreeList mem base nodes) (hbase : base < bp) (hbp : bp ∉ nodes) (hq : q ∈ nodes)
    : ∃ l1 p l2, nodes = l1 ++ p :: l2 ∧ p < bp ∧ (∀ c ∈ l2, bp < c) ∧
        Settles (fun fuel => Umalloc.findPlace mem bp fuel q) p := by
  obtain ⟨l, hl⟩ := h.exists_tail
  have hseg := h.seg
  rw [hl] at hseg hbp
  rw [List.mem_cons, not_or] at hbp
  obtain ⟨l1, p, l2, hsplit, hp, hl2⟩ := hseg.exists_place hbase hbp.2
  rw [← hl] at hsplit
  have hpmem : p ∈ nodes := by
    rw [hsplit]
    simp
  rw [hl.symm, hsplit, seg_append] at hseg
  have hstop := hseg.2.stops (h.base_le hpmem) hp hl2
  have honly : ∀ r ∈ nodes, Umalloc.stops mem bp r → r = p := by
    intro r hr hrstop
    rw [hsplit, List.mem_append, List.mem_cons] at hr
    rcases hr with hr | rfl | hr
    . exact absurd hrstop (hseg.1.not_stops hp r hr)
    . rfl
    . exact absurd hrstop (hseg.2.tail.not_stops hbase hl2 r hr)
  have hfound : ∀ fuel r, Umalloc.findPlace mem bp fuel q = some r → r = p := by
    intro fuel r hr
    rw [findPlace_eq] at hr
    exact honly r (Circuit.find_mem (fun a => h.ptr_mem) hq hr) (Circuit.find_eq_some hr)
  refine ⟨l1, p, l2, hsplit, hp, hl2, hfound, ?_⟩
  obtain ⟨n, hn⟩ := h.reaches hq hpmem
  refine ⟨n + 1, ?_⟩
  intro fuel hfuel
  have hsome : (Umalloc.findPlace mem bp fuel q).isSome := by
    rw [findPlace_eq]
    apply Circuit.find_isSome (n := n)
    . rw [hn]
      exact hstop
    . exact hfuel
  obtain ⟨r, hr⟩ := Option.isSome_iff_exists.mp hsome
  rw [hr, hfound fuel r hr]

-- A node takes in the first node behind it, or comes in front of it.
theorem Seg.join {m : Nat} (h : Seg mem e (q :: l)) (hle : a + 8 * m ≤ q) (ha : a ∉ q :: l)
    (hsame : ∀ b, b ≠ a → mem' b = mem b)
    (hjoin : mem' a = if a + 8 * m = q then ⟨(mem q).ptr, m + (mem q).size⟩ else ⟨q, m⟩)
    : ∃ l', (l' = l ∨ l' = q :: l) ∧ Seg mem' e (a :: l') ∧ m ≤ (mem' a).size ∧
        ∀ x, cover x (blocks mem' (a :: l')) = cover x [⟨a, 8 * m⟩] + cover x (blocks mem (q :: l)) := by
  have hcongr : ∀ b ∈ q :: l, mem' b = mem b := by
    intro b hb
    apply hsame
    rintro rfl
    exact ha hb
  have hcongr' : ∀ b ∈ l, mem' b = mem b := by
    intro b hb
    exact hcongr b (List.mem_cons_of_mem q hb)
  split at hjoin
  . next heq =>
    refine ⟨l, .inl rfl, ?_, ?_, ?_⟩
    . cases l with
      | nil =>
        unfold Seg
        rw [hjoin]
        exact h
      | cons b l =>
        refine ⟨⟨?_, ?_⟩, h.2.congr hcongr'⟩
        . rw [hjoin]
          exact h.1.ptr
        . have := h.1.lt
          unfold Mem.next at *
          rw [hjoin]
          dsimp only
          omega
    . rw [hjoin]
      exact Nat.le_add_right m _
    . intro x
      have hsplit := cover_split (x := x) a (8 * m) (8 * (mem q).size)
      rw [cover_blocks_cons, cover_blocks_cons, blocks_congr hcongr', hjoin, Nat.mul_add, hsplit, heq, Nat.add_assoc]
  . next hne =>
    refine ⟨q :: l, .inr rfl, ⟨⟨?_, ?_⟩, h.congr hcongr⟩, ?_, ?_⟩
    . rw [hjoin]
    . unfold Mem.next
      rw [hjoin]
      dsimp only
      omega
    . simp [hjoin]
    . intro x
      rw [cover_blocks_cons, blocks_congr hcongr, hjoin]

@[simp]
theorem setSize_ptr (mem : Mem) (a n b : Nat) : (mem.setSize a n b).ptr = (mem b).ptr := by
  unfold Mem.setSize
  rw [Function.update_apply]
  split
  . next heq => rw [heq]
  . rfl

@[simp]
theorem setSize_size (mem : Mem) (a n : Nat) : (mem.setSize a n a).size = n := by
  simp [Mem.setSize]

theorem joinUpper_of_ne (mem : Mem) (p : Nat) (h : b ≠ bp) : joinUpper mem bp p b = mem b := by
  unfold joinUpper Mem.setPtr Mem.setSize
  split <;> simp [h]

theorem joinUpper_self (mem : Mem) (bp p : Nat)
    : joinUpper mem bp p bp =
      if mem.next bp = (mem p).ptr then ⟨(mem (mem p).ptr).ptr, (mem bp).size + (mem (mem p).ptr).size⟩
      else ⟨(mem p).ptr, (mem bp).size⟩ := by
  unfold joinUpper
  split <;> simp [Mem.setPtr]

theorem joinLower_of_ne (mem : Mem) (bp : Nat) (h : b ≠ p) : joinLower mem bp p b = mem b := by
  unfold joinLower Mem.setPtr Mem.setSize
  split <;> simp [h]

theorem joinLower_self (mem : Mem) (bp p : Nat)
    : joinLower mem bp p p =
      if mem.next p = bp then ⟨(mem bp).ptr, (mem p).size + (mem bp).size⟩ else ⟨bp, (mem p).size⟩ := by
  unfold joinLower
  split <;> simp [Mem.setPtr]

theorem Seg.joinUpper (h : Seg mem base (p :: l)) (hbase : base < bp) (hl : ∀ c ∈ l, mem.next bp ≤ c)
    (hpos : 0 < (mem bp).size)
    : ∃ l', l' ⊆ l ∧ Seg (joinUpper mem bp p) base (bp :: l') ∧ (mem bp).size ≤ (joinUpper mem bp p bp).size ∧
        ∀ x, cover x (blocks (joinUpper mem bp p) (bp :: l')) =
          cover x [⟨bp, 8 * (mem bp).size⟩] + cover x (blocks mem l) := by
  have hself := joinUpper_self mem bp p
  cases l with
  | nil =>
    have hptr : (mem p).ptr = base := h
    have hlt : ¬ mem.next bp = base := by
      have := le_next mem bp
      omega
    rw [hptr, if_neg hlt] at hself
    refine ⟨[], List.Subset.refl _, ?_, ?_, ?_⟩
    . unfold Seg
      rw [hself]
    . simp [hself]
    . intro x
      rw [cover_blocks_cons, hself]
      rfl
  | cons q l =>
    rw [h.1.ptr] at hself
    have hbp : bp ∉ q :: l := by
      intro hmem
      have := hl bp hmem
      unfold Mem.next at this
      omega
    obtain ⟨l', hl', hseg, hsize, hcover⟩ := h.2.join (hl q List.mem_cons_self) hbp (fun b hb => joinUpper_of_ne mem p hb)
      hself
    refine ⟨l', ?_, hseg, hsize, hcover⟩
    rcases hl' with rfl | rfl
    . exact List.subset_cons_self _ _
    . exact List.Subset.refl _

theorem FreeList.insert (h : FreeList mem base (l1 ++ p :: l2)) (hbase : base < bp) (hpos : 0 < (mem bp).size)
    (hp : mem.next p ≤ bp) (hl2 : ∀ c ∈ l2, mem.next bp ≤ c) (hl1 : bp ∉ l1) (hne : p ≠ bp)
    (hmem : mem' = joinLower (joinUpper mem bp p) bp p)
    : ∃ nodes, FreeList mem' base nodes ∧ p ∈ nodes ∧
        ((mem bp).size ≤ (mem' p).size ∨ (mem bp).size ≤ (mem' (mem' p).ptr).size) ∧
        ∀ x, cover x (blocks mem' nodes) =
          cover x [⟨bp, 8 * (mem bp).size⟩] + cover x (blocks mem (l1 ++ p :: l2)) := by
  obtain ⟨hlead, hseg⟩ := seg_append.mp h.seg
  have hlt : p < bp := by
    have := le_next mem p
    omega
  obtain ⟨l, hl, hseg1, hsize1, hcover1⟩ := hseg.joinUpper hbase hl2 hpos
  have hp1 : joinUpper mem bp p p = mem p := joinUpper_of_ne mem p hne
  have hpl : p ∉ bp :: l := by
    intro hmem
    rcases List.mem_cons.mp hmem with heq | hmem
    . exact hne heq
    . have := hseg.lt p (hl hmem)
      have := le_next mem p
      omega
  have hself : mem' p = if p + 8 * (mem p).size = bp then
      ⟨(joinUpper mem bp p bp).ptr, (mem p).size + (joinUpper mem bp p bp).size⟩ else ⟨bp, (mem p).size⟩ := by
    rw [hmem, joinLower_self, Mem.next, hp1]
  have hsame : ∀ b, b ≠ p → mem' b = joinUpper mem bp p b := by
    intro b hb
    rw [hmem, joinLower_of_ne _ _ hb]
  obtain ⟨l3, hl3, hseg2, hsize2, hcover2⟩ := hseg1.join hp hpl hsame hself
  have hsame' : ∀ a ∈ l1, mem' a = mem a := by
    intro a ha
    have := hlead.lt a ha
    have := le_next mem a
    rw [hsame a (by omega), joinUpper_of_ne]
    rintro rfl
    exact hl1 ha
  have hbp' : mem' bp = joinUpper mem bp p bp := hsame bp hne.symm
  have hsame2 : ∀ a ∈ l, mem' a = mem a := by
    intro a ha
    have := hl2 a (hl ha)
    unfold Mem.next at this
    rw [hsame a, joinUpper_of_ne]
    . omega
    . rintro rfl
      exact hpl (List.mem_cons_of_mem bp ha)
  have hmem3 : ∀ a ∈ l3, a = bp ∨ a ∈ l := by
    intro a ha
    rcases hl3 with rfl | rfl
    . exact .inr ha
    . exact List.mem_cons.mp ha
  refine ⟨l1 ++ p :: l3, ⟨?_, ?_, ?_, ?_⟩, by simp, ?_, ?_⟩
  . have := h.head
    cases l1 <;> exact this
  . exact seg_append.mpr ⟨hlead.congr hsame', hseg2⟩
  . by_cases hpbase : base = p
    . subst hpbase
      rw [hself, h.base_size, if_neg (by omega)]
    . rw [hsame base hpbase, joinUpper_of_ne _ _ (Nat.ne_of_lt hbase), h.base_size]
  . intro a ha hab
    rcases List.mem_append.mp ha with ha | ha
    . rw [hsame' a ha]
      exact h.pos a (List.mem_append_left _ ha) hab
    . rcases List.mem_cons.mp ha with rfl | ha
      . exact Nat.lt_of_lt_of_le (h.pos a (by simp) hab) hsize2
      . rcases hmem3 a ha with rfl | ha
        . rw [hbp']
          exact Nat.lt_of_lt_of_le hpos hsize1
        . rw [hsame2 a ha]
          exact h.pos a (List.mem_append_right _ (List.mem_cons_of_mem p (hl ha))) hab
  . split at hself
    . left
      rw [hself]
      dsimp only
      omega
    . right
      rw [hself, hbp']
      exact hsize1
  . intro x
    rw [cover_blocks_append, cover_blocks_append, blocks_congr hsame', hcover2, hcover1, cover_blocks_cons]
    omega

-- What a free block may become.
structure Freed (base bp : Nat) (nodes : List Nat) (s s' : Heap) : Prop where
  exists_nodes : ∃ nodes', FreeList s'.mem base nodes' ∧ s'.freep ∈ nodes' ∧
    ∀ x, cover x (blocks s'.mem nodes') = cover x [⟨bp, 8 * (s.mem bp).size⟩] + cover x (blocks s.mem nodes)
  same : ∀ a ∉ nodes, a ≠ bp → s'.mem a = s.mem a
  size : (s.mem bp).size ≤ (s'.mem s'.freep).size ∨ (s.mem bp).size ≤ (s'.mem (s'.mem s'.freep).ptr).size
  calls : s'.calls = s.calls

theorem free_spec {s : Heap} (h : FreeList s.mem base nodes) (hfreep : s.freep ∈ nodes) (hbase : base < bp)
    (hpos : 0 < (s.mem bp).size) (hapart : ∀ a ∈ nodes, s.mem.next a ≤ bp ∨ s.mem.next bp ≤ a)
    : ∃ s', Freed base bp nodes s s' ∧ Settles (fun fuel => free fuel (bp + 8) s) s' := by
  have hbp : bp ∉ nodes := by
    intro hmem
    have := hapart bp hmem
    unfold Mem.next at this
    omega
  obtain ⟨l1, p, l2, hsplit, hp, hl2, hfind⟩ := h.findPlace hbase hbp hfreep
  subst hsplit
  have hpbp : s.mem.next p ≤ bp := by
    have := hapart p (by simp)
    have := le_next s.mem bp
    omega
  have hupper : ∀ c ∈ l2, s.mem.next bp ≤ c := by
    intro c hc
    have := hl2 c hc
    have := hapart c (by simp [hc])
    have := le_next s.mem c
    omega
  have hl1 : bp ∉ l1 := fun hmem => hbp (List.mem_append_left _ hmem)
  obtain ⟨nodes, hlist, hpmem, hsize, hcover⟩ := h.insert hbase hpos hpbp hupper hl1 (Nat.ne_of_lt hp) rfl
  refine ⟨{ s with mem := joinLower (joinUpper s.mem bp p) bp p, freep := p }, ⟨?_, ?_, hsize, rfl⟩, ?_⟩
  . exact ⟨nodes, hlist, hpmem, hcover⟩
  . intro a ha hab
    dsimp only
    rw [joinLower_of_ne, joinUpper_of_ne _ _ hab]
    rintro rfl
    exact ha (by simp)
  . apply hfind.map
    . intro fuel hplace
      rw [free, Nat.add_sub_cancel, hplace]
      rfl
    . intro fuel hplace
      rw [free, Nat.add_sub_cancel, hplace]
      rfl

end Xv6.Umalloc
