import Xv6.Umalloc.Free

/-!
What `malloc` takes from a free block that is large enough.
-/

namespace Xv6.Umalloc

open Tiling

variable {mem mem' : Mem} {base a b p prevp n x : Nat} {nodes : List Nat} {s : Heap}

-- What `malloc` takes from the free list.
structure Taken (base n : Nat) (nodes : List Nat) (s : Heap) (b : Nat) (s' : Heap) : Prop where
  exists_nodes : ∃ nodes', FreeList s'.mem base nodes' ∧ s'.freep ∈ nodes' ∧
    ∀ x, cover x [⟨b, 8 * n⟩] + cover x (blocks s'.mem nodes') = cover x (blocks s.mem nodes)
  same : ∀ a ∉ nodes, a ≠ b → s'.mem a = s.mem a
  base_lt : base < b
  size : (s'.mem b).size = n
  calls : s'.calls = s.calls

theorem FreeList.base_lt (h : FreeList mem base nodes) (ha : a ∈ nodes) (hsize : 0 < (mem a).size) : base < a := by
  have hle := h.base_le ha
  have : base ≠ a := by
    rintro rfl
    rw [h.base_size] at hsize
    omega
  omega

theorem setPtr_of_ne (mem : Mem) (v : Nat) (h : b ≠ a) : mem.setPtr a v b = mem b :=
  Function.update_of_ne h _ _

@[simp]
theorem setPtr_size (mem : Mem) (a v b : Nat) : (mem.setPtr a v b).size = (mem b).size := by
  unfold Mem.setPtr
  rw [Function.update_apply]
  split
  . next heq => rw [heq]
  . rfl

@[simp]
theorem setPtr_ptr (mem : Mem) (a v : Nat) : (mem.setPtr a v a).ptr = v := by
  simp [Mem.setPtr]

theorem setSize_of_ne (mem : Mem) (v : Nat) (h : b ≠ a) : mem.setSize a v b = mem b :=
  Function.update_of_ne h _ _

theorem FreeList.unlink (h : FreeList mem base nodes) (hprev : prevp ∈ nodes) (hptr : (mem prevp).ptr = p)
    (hsize : 0 < (mem p).size) (hmem : mem' = mem.setPtr prevp (mem p).ptr)
    : ∃ nodes', FreeList mem' base nodes' ∧ prevp ∈ nodes' ∧ p ≠ prevp ∧
        ∀ x, cover x [⟨p, 8 * (mem p).size⟩] + cover x (blocks mem' nodes') = cover x (blocks mem nodes) := by
  have hpmem : p ∈ nodes := hptr ▸ h.ptr_mem hprev
  have hbase := h.base_lt hpmem hsize
  obtain ⟨l1, l2, rfl⟩ := List.append_of_mem hprev
  obtain ⟨hlead, hseg⟩ := seg_append.mp h.seg
  have hsizes : ∀ a, (mem' a).size = (mem a).size := by
    intro a
    rw [hmem, setPtr_size]
  have hblocks : ∀ l, blocks mem' l = blocks mem l := by
    intro l
    simp only [blocks, hsizes]
  have hsame : ∀ a, a ≠ prevp → mem' a = mem a := by
    intro a ha
    rw [hmem, setPtr_of_ne _ _ ha]
  cases l2 with
  | nil =>
    have hlast : (mem prevp).ptr = base := hseg
    omega
  | cons c l2 =>
    obtain ⟨hedge, hseg⟩ := hseg
    have hcp : c = p := hedge.ptr.symm.trans hptr
    subst hcp
    have hlt := hedge.lt
    have hle := le_next mem prevp
    have hl1 : ∀ a ∈ l1, mem' a = mem a := by
      intro a ha
      have := hlead.lt a ha
      have := le_next mem a
      exact hsame a (by omega)
    have hl2 : ∀ a ∈ l2, mem' a = mem a := by
      intro a ha
      have := hseg.lt a ha
      have := le_next mem c
      exact hsame a (by omega)
    have hseg' : Seg mem' base (prevp :: l2) := by
      cases l2 with
      | nil =>
        unfold Seg
        rw [hmem, setPtr_ptr]
        exact hseg
      | cons d l2 =>
        refine ⟨⟨?_, ?_⟩, hseg.2.congr hl2⟩
        . rw [hmem, setPtr_ptr]
          exact hseg.1.ptr
        . have := hseg.1.lt
          have := le_next mem c
          unfold Mem.next at *
          rw [hsizes]
          omega
    refine ⟨l1 ++ prevp :: l2, ⟨?_, ?_, ?_, ?_⟩, by simp, by omega, ?_⟩
    . have := h.head
      cases l1 <;> exact this
    . exact seg_append.mpr ⟨hlead.congr hl1, hseg'⟩
    . rw [hsizes]
      exact h.base_size
    . intro a ha hab
      rw [hsizes]
      apply h.pos a _ hab
      simp only [List.mem_append, List.mem_cons] at ha ⊢
      tauto
    . intro x
      rw [hblocks, cover_blocks_append, cover_blocks_append, cover_blocks_cons, cover_blocks_cons, cover_blocks_cons]
      omega

theorem FreeList.shrink (h : FreeList mem base nodes) (hp : p ∈ nodes) (hn : 0 < n) (hsize : n < (mem p).size)
    (hq : a = p + 8 * ((mem p).size - n)) (hmem : mem' = (mem.setSize p ((mem p).size - n)).setSize a n)
    : FreeList mem' base nodes ∧ a ∉ nodes ∧
        ∀ x, cover x [⟨a, 8 * n⟩] + cover x (blocks mem' nodes) = cover x (blocks mem nodes) := by
  have hbase := h.base_lt hp (by omega)
  obtain ⟨l1, l2, rfl⟩ := List.append_of_mem hp
  obtain ⟨hlead, hseg⟩ := seg_append.mp h.seg
  have hl1 : ∀ b ∈ l1, b < p := by
    intro b hb
    have := hlead.lt b hb
    have := le_next mem b
    omega
  have hl2 : ∀ b ∈ l2, p + 8 * (mem p).size < b := hseg.lt
  have hsame : ∀ b, b ≠ p → b ≠ a → mem' b = mem b := by
    intro b hbp hba
    rw [hmem, setSize_of_ne _ _ hba, setSize_of_ne _ _ hbp]
  have hself : mem' p = ⟨(mem p).ptr, (mem p).size - n⟩ := by
    rw [hmem, setSize_of_ne _ _ (by omega)]
    simp [Mem.setSize]
  have hsame1 : ∀ b ∈ l1, mem' b = mem b := by
    intro b hb
    have := hl1 b hb
    exact hsame b (by omega) (by omega)
  have hsame2 : ∀ b ∈ l2, mem' b = mem b := by
    intro b hb
    have := hl2 b hb
    exact hsame b (by omega) (by omega)
  have hseg' : Seg mem' base (p :: l2) := by
    cases l2 with
    | nil =>
      unfold Seg
      rw [hself]
      exact hseg
    | cons c l2 =>
      refine ⟨⟨?_, ?_⟩, hseg.2.congr hsame2⟩
      . rw [hself]
        exact hseg.1.ptr
      . have := hl2 c List.mem_cons_self
        unfold Mem.next
        rw [hself]
        dsimp only
        omega
  refine ⟨⟨h.head, seg_append.mpr ⟨hlead.congr hsame1, hseg'⟩, ?_, ?_⟩, ?_, ?_⟩
  . rw [hsame base (by omega) (by omega)]
    exact h.base_size
  . intro b hb hbbase
    have := h.pos b hb hbbase
    rcases List.mem_append.mp hb with hb | hb
    . rwa [hsame1 b hb]
    . rcases List.mem_cons.mp hb with rfl | hb
      . rw [hself]
        dsimp only
        omega
      . rwa [hsame2 b hb]
  . intro hmem
    rcases List.mem_append.mp hmem with hb | hb
    . have := hl1 a hb
      omega
    . rcases List.mem_cons.mp hb with hb | hb
      . omega
      . have := hl2 a hb
        omega
  . intro x
    have hsplit := cover_split (x := x) p (8 * ((mem p).size - n)) (8 * n)
    have hsum : 8 * ((mem p).size - n) + 8 * n = 8 * (mem p).size := by omega
    rw [hsum, ← hq] at hsplit
    rw [cover_blocks_append, cover_blocks_append, cover_blocks_cons, cover_blocks_cons, blocks_congr hsame1,
      blocks_congr hsame2, hself]
    dsimp only
    omega

theorem take_spec (h : FreeList s.mem base nodes) (hprev : prevp ∈ nodes) (hptr : (s.mem prevp).ptr = p) (hn : 0 < n)
    (hsize : n ≤ (s.mem p).size)
    : ∃ b s', take n prevp p s = (b + 8, s') ∧ Taken base n nodes s b s' := by
  have hpmem : p ∈ nodes := hptr ▸ h.ptr_mem hprev
  have hbase := h.base_lt hpmem (by omega)
  unfold take
  split
  . next heq =>
    obtain ⟨nodes', hlist, hmem, hne, hcover⟩ := h.unlink hprev hptr (by omega) rfl
    rw [heq] at hcover
    refine ⟨p, _, rfl, ⟨nodes', hlist, hmem, hcover⟩, ?_, hbase, ?_, rfl⟩
    . intro a ha _
      apply setPtr_of_ne
      rintro rfl
      exact ha hprev
    . rw [setPtr_size, heq]
  . next hne =>
    obtain ⟨hlist, hmem, hcover⟩ := h.shrink hpmem hn (by omega) rfl rfl
    have hnext : (s.mem.setSize p ((s.mem p).size - n)).next p = p + 8 * ((s.mem p).size - n) := by
      rw [Mem.next, setSize_size]
    dsimp only
    rw [hnext]
    refine ⟨_, _, rfl, ⟨nodes, hlist, hprev, hcover⟩, ?_, by omega, setSize_size _ _ _, rfl⟩
    intro a ha hab
    dsimp only
    rw [setSize_of_ne _ _ hab, setSize_of_ne]
    rintro rfl
    exact ha hpmem

end Xv6.Umalloc
