import Mathlib.Data.List.Nodup
import Mathlib.Logic.Function.Basic

/-!
Numbered units that places refer to: `f x` is the unit in the place `x`, or zero. A unit between `lo` and `hi` is in
use if and only if it is in one place, or held by the code that moves it from one to the other.
-/

structure Ledger {κ : Type} (lo hi : Nat) (f : κ → Nat) (used : Nat → Prop) (held : List Nat) : Prop where
  pos : 0 < lo
  inj : ∀ x y, f x ≠ 0 → f x = f y → x = y
  apart : ∀ x, f x ∉ held
  nodup : held.Nodup
  range : ∀ x, f x ≠ 0 → lo ≤ f x ∧ f x < hi
  rangeHeld : ∀ b ∈ held, lo ≤ b ∧ b < hi
  marked : ∀ b, lo ≤ b → b < hi → (used b ↔ (∃ x, f x = b) ∨ b ∈ held)

namespace Ledger

variable {κ : Type} {lo hi b : Nat} {f f' : κ → Nat} {used used' : Nat → Prop} {held : List Nat} {x : κ}

theorem used_of_held (h : Ledger lo hi f used held) (hb : b ∈ held) : used b := by
  have := h.rangeHeld b hb
  exact (h.marked b this.1 this.2).mpr (.inr hb)

theorem used_of_place (h : Ledger lo hi f used held) (hx : f x ≠ 0) : used (f x) := by
  have := h.range x hx
  exact (h.marked (f x) this.1 this.2).mpr (.inl ⟨x, rfl⟩)

theorem ne_zero (h : Ledger lo hi f used held) (hb : b ∈ held) : b ≠ 0 := by
  have := h.rangeHeld b hb
  have := h.pos
  omega

theorem congr (h : Ledger lo hi f used held) (hf : ∀ x, f' x = f x)
    (hused : ∀ b, lo ≤ b → b < hi → (used' b ↔ used b))
    : Ledger lo hi f' used' held := by
  have : f' = f := funext hf
  rw [this]
  refine ⟨h.pos, h.inj, h.apart, h.nodup, h.range, h.rangeHeld, ?_⟩
  intro b hlo hhi
  rw [hused b hlo hhi, h.marked b hlo hhi]

theorem take (used' : Nat → Prop) (h : Ledger lo hi f used held) (hlo : lo ≤ b) (hhi : b < hi) (hb : ¬ used b)
    (hused : ∀ c, used' c ↔ used c ∨ c = b)
    : Ledger lo hi f used' (b :: held) := by
  rw [h.marked b hlo hhi, not_or] at hb
  obtain ⟨hplace, hheld⟩ := hb
  refine ⟨h.pos, h.inj, ?_, List.nodup_cons.mpr ⟨hheld, h.nodup⟩, h.range, ?_, ?_⟩
  . intro x hx
    rcases List.mem_cons.mp hx with hx | hx
    . exact hplace ⟨x, hx⟩
    . exact h.apart x hx
  . intro c hc
    rcases List.mem_cons.mp hc with rfl | hc
    . exact ⟨hlo, hhi⟩
    . exact h.rangeHeld c hc
  . intro c hclo hchi
    rw [hused, h.marked c hclo hchi, List.mem_cons]
    constructor
    . rintro ((hc | hc) | hc)
      . exact .inl hc
      . exact .inr (.inr hc)
      . exact .inr (.inl hc)
    . rintro (hc | hc | hc)
      . exact .inl (.inl hc)
      . exact .inr hc
      . exact .inl (.inr hc)

theorem give (used' : Nat → Prop) (h : Ledger lo hi f used (b :: held)) (hused : ∀ c, used' c ↔ used c ∧ c ≠ b)
    : Ledger lo hi f used' held := by
  have hnodup := List.nodup_cons.mp h.nodup
  refine ⟨h.pos, h.inj, ?_, hnodup.2, h.range, ?_, ?_⟩
  . intro x hx
    exact h.apart x (List.mem_cons_of_mem b hx)
  . intro c hc
    exact h.rangeHeld c (List.mem_cons_of_mem b hc)
  . intro c hlo hhi
    rw [hused, h.marked c hlo hhi, List.mem_cons]
    constructor
    . rintro ⟨hc | hc | hc, hne⟩
      . exact .inl hc
      . exact absurd hc hne
      . exact .inr hc
    . rintro (⟨x, rfl⟩ | hc)
      . refine ⟨.inl ⟨x, rfl⟩, ?_⟩
        intro heq
        exact h.apart x (heq ▸ List.mem_cons_self)
      . refine ⟨.inr (.inr hc), ?_⟩
        rintro rfl
        exact hnodup.1 hc

variable [DecidableEq κ]

theorem attach (h : Ledger lo hi f used (b :: held)) (hx : f x = 0) (hf : ∀ y, f' y = if y = x then b else f y)
    : Ledger lo hi f' used held := by
  have hnodup := List.nodup_cons.mp h.nodup
  have hb := h.ne_zero List.mem_cons_self
  -- nothing else is in the place of `b`
  have hfree : ∀ y, f y ≠ b := fun y heq => h.apart y (heq ▸ List.mem_cons_self)
  refine ⟨h.pos, ?_, ?_, hnodup.2, ?_, ?_, ?_⟩
  . intro y z hy heq
    rw [hf] at hy heq
    rw [hf] at heq
    split at hy <;> rename_i hyx
    . rw [if_pos hyx] at heq
      split at heq
      . next hzx => rw [hyx, hzx]
      . exact absurd heq.symm (hfree z)
    . rw [if_neg hyx] at heq
      split at heq
      . exact absurd heq (hfree y)
      . exact h.inj y z hy heq
  . intro y
    rw [hf]
    split
    . exact hnodup.1
    . exact fun hy => h.apart y (List.mem_cons_of_mem b hy)
  . intro y
    rw [hf]
    split
    . exact fun _ => h.rangeHeld b List.mem_cons_self
    . exact h.range y
  . intro c hc
    exact h.rangeHeld c (List.mem_cons_of_mem b hc)
  . intro c hlo hhi
    rw [h.marked c hlo hhi, List.mem_cons]
    constructor
    . rintro (⟨y, rfl⟩ | rfl | hc)
      . refine .inl ⟨y, ?_⟩
        rw [hf, if_neg]
        rintro rfl
        have := h.pos
        omega
      . exact .inl ⟨x, by rw [hf, if_pos rfl]⟩
      . exact .inr hc
    . rintro (⟨y, rfl⟩ | hc)
      . rw [hf]
        split
        . exact .inr (.inl rfl)
        . exact .inl ⟨y, rfl⟩
      . exact .inr (.inr hc)

theorem detach (h : Ledger lo hi f used held) (hx : f x ≠ 0) (hf : ∀ y, f' y = if y = x then 0 else f y)
    : Ledger lo hi f' used (f x :: held) := by
  have hzero : ∀ c ∈ held, c ≠ 0 := fun c hc => h.ne_zero hc
  refine ⟨h.pos, ?_, ?_, List.nodup_cons.mpr ⟨h.apart x, h.nodup⟩, ?_, ?_, ?_⟩
  . intro y z hy heq
    rw [hf] at hy heq
    rw [hf] at heq
    split at hy <;> rename_i hyx
    . exact absurd rfl hy
    . rw [if_neg hyx] at heq
      split at heq
      . exact absurd heq hy
      . exact h.inj y z hy heq
  . intro y hy
    rw [hf] at hy
    split at hy <;> rename_i hyx
    . rcases List.mem_cons.mp hy with hy | hy
      . exact hx hy.symm
      . exact hzero 0 hy rfl
    . rcases List.mem_cons.mp hy with hy | hy
      . exact hyx (h.inj x y hx hy.symm).symm
      . exact h.apart y hy
  . intro y
    rw [hf]
    split
    . exact fun hy => absurd rfl hy
    . exact h.range y
  . intro c hc
    rcases List.mem_cons.mp hc with rfl | hc
    . exact h.range x hx
    . exact h.rangeHeld c hc
  . intro c hlo hhi
    have := h.pos
    rw [h.marked c hlo hhi, List.mem_cons]
    constructor
    . rintro (⟨y, rfl⟩ | hc)
      . by_cases hyx : y = x
        . exact .inr (.inl (by rw [hyx]))
        . exact .inl ⟨y, by rw [hf, if_neg hyx]⟩
      . exact .inr (.inr hc)
    . rintro (⟨y, rfl⟩ | rfl | hc)
      . rw [hf] at hlo ⊢
        split at hlo
        . omega
        . next hyx =>
          rw [if_neg hyx]
          exact .inl ⟨y, rfl⟩
      . exact .inl ⟨x, rfl⟩
      . exact .inr hc

theorem detachAll (h : Ledger lo hi f used held) {l : List κ} (hl : l.Nodup) (hmem : ∀ y ∈ l, f' y = 0)
    (hnot : ∀ y, y ∉ l → f' y = f y)
    : Ledger lo hi f' used ((l.filter fun y => f y ≠ 0).map f ++ held) := by
  induction l generalizing f' with
  | nil => exact h.congr (fun y => hnot y List.not_mem_nil) (by simp)
  | cons x l ih =>
    rw [List.nodup_cons] at hl
    have h1 : Ledger lo hi (fun y => if y ∈ l then 0 else f y) used ((l.filter fun y => f y ≠ 0).map f ++ held) :=
      ih hl.2 (fun y hy => if_pos hy) (fun y hy => if_neg hy)
    have hf : ∀ y, f' y = if y ∈ x :: l then 0 else f y := by
      intro y
      split
      . next hy => exact hmem y hy
      . next hy => exact hnot y hy
    by_cases hx : f x = 0
    . rw [List.filter_cons_of_neg (by simpa using hx)]
      apply h1.congr
      . intro y
        rw [hf]
        by_cases hy : y = x
        . simp [hy, hx, hl.1]
        . simp [hy]
      . simp
    . rw [List.filter_cons_of_pos (by simpa using hx)]
      have hf' : ∀ y, f' y = if y = x then 0 else if y ∈ l then 0 else f y := by
        intro y
        rw [hf]
        by_cases hy : y = x
        . simp [hy]
        . simp [hy]
      have h2 := h1.detach (by simpa [hl.1] using hx) hf'
      rwa [if_neg hl.1] at h2

end Ledger
