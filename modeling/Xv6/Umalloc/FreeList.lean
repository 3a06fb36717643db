import Xv6.Lib.Circuit
import Xv6.Lib.Tiling
import Xv6.Umalloc.Impl

/-!
The free list: circular, ordered by address, no two blocks that touch.
-/

namespace Xv6.Umalloc

open Tiling

variable {mem mem' : Mem} {base e a b p q n x : Nat} {l l1 l2 nodes : List Nat}

-- `b` follows `a` in the list and does not touch it in memory.
structure Edge (mem : Mem) (a b : Nat) : Prop where
  ptr : (mem a).ptr = b
  lt : mem.next a < b

-- The nodes in order; the last one points to `e`.
def Seg (mem : Mem) (e : Nat) : List Nat → Prop
  | [] => True
  | [a] => (mem a).ptr = e
  | a :: b :: l => Edge mem a b ∧ Seg mem e (b :: l)

-- The nodes in front of `p`.
def Lead (mem : Mem) (p : Nat) : List Nat → Prop
  | [] => True
  | [a] => Edge mem a p
  | a :: b :: l => Edge mem a b ∧ Lead mem p (b :: l)

structure FreeList (mem : Mem) (base : Nat) (nodes : List Nat) : Prop where
  head : nodes.head? = some base
  seg : Seg mem base nodes
  base_size : (mem base).size = 0
  pos : ∀ a ∈ nodes, a ≠ base → 0 < (mem a).size

def blocks (mem : Mem) (l : List Nat) : List Block :=
  l.map fun a => ⟨a, 8 * (mem a).size⟩

theorem le_next (mem : Mem) (a : Nat) : a ≤ mem.next a :=
  Nat.le_add_right _ _

theorem seg_append : Seg mem e (l1 ++ p :: l2) ↔ Lead mem p l1 ∧ Seg mem e (p :: l2) := by
  induction l1 with
  | nil => simp [Lead]
  | cons a l1 ih =>
    cases l1 with
    | nil => simp [Seg, Lead]
    | cons b l1 =>
      rw [List.cons_append, List.cons_append, Seg, Lead, ← List.cons_append, ih, and_assoc]

theorem Seg.lt (h : Seg mem e (a :: l)) : ∀ b ∈ l, mem.next a < b := by
  induction l generalizing a with
  | nil => simp
  | cons c l ih =>
    intro b hb
    rcases List.mem_cons.mp hb with rfl | hb
    . exact h.1.lt
    . have := h.1.lt
      have := ih h.2 b hb
      have := le_next mem c
      omega

theorem Lead.lt (h : Lead mem p l) : ∀ a ∈ l, mem.next a < p := by
  induction l with
  | nil => simp
  | cons a l ih =>
    intro c hc
    cases l with
    | nil =>
      have hedge : Edge mem a p := h
      rw [List.mem_singleton.mp hc]
      exact hedge.lt
    | cons b l =>
      rcases List.mem_cons.mp hc with rfl | hc
      . have := h.1.lt
        have := ih h.2 b List.mem_cons_self
        have := le_next mem b
        omega
      . exact ih h.2 c hc

theorem Edge.congr (h : Edge mem a b) (heq : mem' a = mem a) : Edge mem' a b := by
  constructor
  . rw [heq]
    exact h.ptr
  . unfold Mem.next
    rw [heq]
    exact h.lt

theorem Seg.congr (h : Seg mem e l) (heq : ∀ a ∈ l, mem' a = mem a) : Seg mem' e l := by
  induction l with
  | nil => trivial
  | cons a l ih =>
    have ha := heq a List.mem_cons_self
    cases l with
    | nil =>
      unfold Seg
      rw [ha]
      exact h
    | cons b l => exact ⟨h.1.congr ha, ih h.2 fun c hc => heq c (List.mem_cons_of_mem _ hc)⟩

theorem Lead.congr (h : Lead mem p l) (heq : ∀ a ∈ l, mem' a = mem a) : Lead mem' p l := by
  induction l with
  | nil => trivial
  | cons a l ih =>
    have ha := heq a List.mem_cons_self
    cases l with
    | nil => exact Edge.congr h ha
    | cons b l => exact ⟨h.1.congr ha, ih h.2 fun c hc => heq c (List.mem_cons_of_mem _ hc)⟩

theorem blocks_congr (heq : ∀ a ∈ l, mem' a = mem a) : blocks mem' l = blocks mem l := by
  unfold blocks
  apply List.map_congr_left
  intro a ha
  rw [heq a ha]

theorem cover_blocks_cons (mem : Mem) (a : Nat) (l : List Nat)
    : cover x (blocks mem (a :: l)) = cover x [⟨a, 8 * (mem a).size⟩] + cover x (blocks mem l) :=
  cover_cons _ _

theorem cover_blocks_append (mem : Mem) (l1 l2 : List Nat)
    : cover x (blocks mem (l1 ++ l2)) = cover x (blocks mem l1) + cover x (blocks mem l2) := by
  rw [blocks, List.map_append, cover_append]
  rfl

theorem Seg.path (h : Seg mem e (a :: l)) : Circuit.Path (fun a => (mem a).ptr) e a l := by
  induction l generalizing a with
  | nil => exact h
  | cons b l ih => exact ⟨h.1.ptr, ih h.2⟩

namespace FreeList

theorem exists_tail (h : FreeList mem base nodes) : ∃ l, nodes = base :: l := by
  cases nodes with
  | nil => cases h.head
  | cons a l =>
    have := h.head
    simp only [List.head?_cons, Option.some.injEq] at this
    exact ⟨l, by rw [this]⟩

theorem base_mem (h : FreeList mem base nodes) : base ∈ nodes := by
  obtain ⟨l, rfl⟩ := h.exists_tail
  exact List.mem_cons_self

theorem base_le (h : FreeList mem base nodes) (ha : a ∈ nodes) : base ≤ a := by
  obtain ⟨l, rfl⟩ := h.exists_tail
  rcases List.mem_cons.mp ha with rfl | ha
  . exact Nat.le_refl a
  . have := h.seg.lt a ha
    have := le_next mem base
    omega

theorem ptr_mem (h : FreeList mem base nodes) (ha : a ∈ nodes) : (mem a).ptr ∈ nodes := by
  obtain ⟨l, rfl⟩ := h.exists_tail
  rcases h.seg.path.next_mem ha with heq | hmem
  . rw [heq]
    exact List.mem_cons_self
  . exact List.mem_cons_of_mem _ hmem

theorem congr (h : FreeList mem base nodes) (heq : ∀ a ∈ nodes, mem' a = mem a) : FreeList mem' base nodes where
  head := h.head
  seg := h.seg.congr heq
  base_size := by
    rw [heq base h.base_mem]
    exact h.base_size
  pos := by
    intro a ha hab
    rw [heq a ha]
    exact h.pos a ha hab

theorem reaches (h : FreeList mem base nodes) (ha : a ∈ nodes) (hb : b ∈ nodes)
    : ∃ n, (fun a => (mem a).ptr)^[n] a = b := by
  obtain ⟨l, rfl⟩ := h.exists_tail
  exact h.seg.path.reaches ha hb

end FreeList

end Xv6.Umalloc
