import Xv6.Memmove.Impl

/-!
What the two functions do when the regions overlap. The one of the kernel copies from the end where it has to, and the
one of the user library never does, so it may read bytes that it has written.
-/

namespace Xv6.Memmove

/-- The `n` bytes from `s` on are at `d`, and the rest of the memory is unchanged. -/
def moved (d s n : Nat) (m : Memory) : Memory := fun a =>
  if d ≤ a ∧ a < d + n then m (s + (a - d)) else m a

-- Two regions of `n` bytes that do not wrap around.
structure Regions (d s n : Nat) : Prop where
  dst : d < 2 ^ 32
  src : s < 2 ^ 32
  dstEnd : d + n ≤ 2 ^ 32
  srcEnd : s + n ≤ 2 ^ 32

variable {a d k n s : Nat} {m : Memory}

theorem uint_eq (h : k < 2 ^ 32) : uint k = k :=
  Nat.mod_eq_of_lt h

theorem copyUp_succ (hr : Regions d s (n + 1)) (m : Memory)
    : copyUp d s (n + 1) m = copyUp (d + 1) (s + 1) n (Function.update m d (m s)) ∧
      (n ≠ 0 → Regions (d + 1) (s + 1) n) := by
  obtain ⟨hdst, hsrc, hdstEnd, hsrcEnd⟩ := hr
  cases n with
  | zero => exact ⟨rfl, fun h => absurd rfl h⟩
  | succ n =>
    refine ⟨?_, fun _ => ⟨by omega, by omega, by omega, by omega⟩⟩
    rw [copyUp, uint_eq (by omega), uint_eq (by omega)]

theorem copyUp_outside (hr : Regions d s n) (ha : a < d ∨ d + n ≤ a) (m : Memory) : copyUp d s n m a = m a := by
  induction n generalizing d s m with
  | zero => rfl
  | succ n ih =>
    obtain ⟨hcopy, hr'⟩ := copyUp_succ hr m
    have hne : a ≠ d := by omega
    rw [hcopy]
    by_cases hn : n = 0
    . rw [hn, copyUp, Function.update_of_ne hne]
    . rw [ih (hr' hn) (by omega), Function.update_of_ne hne]

-- Where a byte at `d` comes from: behind an overlap the same `d - s` bytes come again and again.
def origin (d s k : Nat) : Nat :=
  if s < d then s + k % (d - s) else s + k

theorem copyUp_inside (hr : Regions d s n) (hk : k < n) (m : Memory) : copyUp d s n m (d + k) = m (origin d s k) := by
  induction n generalizing d s k m with
  | zero => omega
  | succ n ih =>
    obtain ⟨hcopy, hr'⟩ := copyUp_succ hr m
    rw [hcopy]
    cases k with
    | zero =>
      have horigin : origin d s 0 = s := by
        unfold origin
        simp
      rw [horigin]
      change copyUp (d + 1) (s + 1) n (Function.update m d (m s)) d = m s
      by_cases hn : n = 0
      . rw [hn, copyUp, Function.update_self]
      . rw [copyUp_outside (hr' hn) (by omega), Function.update_self]
    | succ k =>
      have hsucc := ih (hr' (by omega)) (Nat.lt_of_succ_lt_succ hk) (Function.update m d (m s))
      rw [Nat.add_right_comm] at hsucc
      change copyUp (d + 1) (s + 1) n (Function.update m d (m s)) (d + k + 1) = m (origin d s (k + 1))
      rw [hsucc]
      unfold origin
      by_cases hlt : s < d
      . -- the last byte in front of `d` is followed by the one that was written first
        have hmod : k % (d - s) < d - s := Nat.mod_lt _ (by omega)
        have hsub : d + 1 - (s + 1) = d - s := by omega
        rw [if_pos (by omega), if_pos hlt, hsub]
        by_cases hlast : k % (d - s) = d - s - 1
        . have hzero : (k + 1) % (d - s) = 0 := by
            rw [Nat.add_mod, hlast]
            by_cases hone : d - s = 1
            . rw [hone, Nat.mod_one]
            . rw [Nat.mod_eq_of_lt (a := 1) (by omega), Nat.sub_add_cancel (by omega), Nat.mod_self]
          have hd : s + 1 + k % (d - s) = d := by omega
          rw [hd, Function.update_self, hzero, Nat.add_zero]
        . have hnext : (k + 1) % (d - s) = k % (d - s) + 1 := by
            rw [Nat.add_mod, Nat.mod_eq_of_lt (a := 1) (by omega), Nat.mod_eq_of_lt (by omega)]
          rw [Function.update_of_ne (by omega), hnext]
          congr 1
          omega
      . rw [if_neg (by omega), if_neg hlt, Function.update_of_ne (by omega)]
        congr 1
        omega

theorem copyUp_eq (hr : Regions d s n) (m : Memory)
    : copyUp d s n m = fun a => if d ≤ a ∧ a < d + n then m (origin d s (a - d)) else m a := by
  funext a
  split
  . next h =>
    have hk : a - d < n := by omega
    rw [← copyUp_inside hr hk m, Nat.add_sub_cancel' h.1]
  . next h => exact copyUp_outside hr (by omega) m

theorem copyDown_eq (hr : Regions d s n) (hle : s ≤ d) (m : Memory)
    : copyDown (uint (d + n)) (uint (s + n)) n m = moved d s n m := by
  induction n generalizing m with
  | zero =>
    funext a
    unfold moved
    rw [if_neg (by omega)]
    rfl
  | succ n ih =>
    obtain ⟨hdst, hsrc, hdstEnd, hsrcEnd⟩ := hr
    have hback : ∀ p, p + n + 1 ≤ 2 ^ 32 → uint (uint (p + (n + 1)) + 2 ^ 32 - 1) = p + n := by
      intro p hp
      unfold uint
      omega
    unfold copyDown
    dsimp only
    rw [hback d (by omega), hback s (by omega)]
    have hd : d + n = uint (d + n) := (uint_eq (by omega)).symm
    have hs : s + n = uint (s + n) := (uint_eq (by omega)).symm
    have hih := ih ⟨hdst, hsrc, by omega, by omega⟩ (Function.update m (d + n) (m (s + n)))
    rw [← hd, ← hs] at hih
    rw [hih]
    funext a
    unfold moved
    by_cases hlast : a = d + n
    . subst hlast
      rw [if_neg (by omega), Function.update_self, if_pos (by omega)]
      congr 1
      omega
    . rw [Function.update_of_ne hlast]
      by_cases hin : d ≤ a ∧ a < d + n
      . rw [if_pos hin, if_pos (by omega), Function.update_of_ne (by omega)]
      . rw [if_neg hin, if_neg (by omega)]

/-- The kernel's `memmove` moves the bytes, whether the regions overlap or not. -/
theorem kernelMemmove_eq (hr : Regions d s n) (m : Memory) : kernelMemmove d s n m = moved d s n m := by
  unfold kernelMemmove
  split
  . next h => exact copyDown_eq hr (Nat.le_of_lt h.1) m
  . next h =>
    rw [copyUp_eq hr]
    funext a
    unfold moved
    split
    . next ha =>
      congr 1
      unfold origin
      split
      . next hlt =>
        -- the regions do not overlap
        have hend : d ≠ 0 → uint (s + n) = s + n := fun hd => uint_eq (by have := hr.dstEnd; omega)
        have hfar : s + n ≤ d := by
          have := hend (by omega)
          omega
        rw [Nat.mod_eq_of_lt (by omega)]
      . rfl
    . rfl

-- The source begins in front of the destination and reaches into it.
def Overlaps (d s n : Nat) : Prop :=
  s < d ∧ d < s + n

-- The `n` bytes from `s` on are the first `d - s` ones again and again.
def Repeats (d s n : Nat) (m : Memory) : Prop :=
  ∀ k < n, m (s + k) = m (s + k % (d - s))

/--
The two functions move the bytes if and only if the destination does not overlap the end of the source, or the bytes
repeat themselves so that this makes no difference.
-/
theorem memmoves_agree_iff (hr : Regions d s n) (m : Memory)
    : ulibMemmove d s n m = kernelMemmove d s n m ∧ kernelMemmove d s n m = moved d s n m ↔
      ¬ Overlaps d s n ∨ Repeats d s n m := by
  have hinside : ∀ k < n, moved d s n m (d + k) = m (s + k) := by
    intro k hk
    unfold moved
    rw [if_pos (by omega), Nat.add_sub_cancel_left]
  rw [kernelMemmove_eq hr, and_iff_left rfl, ulibMemmove, Int.toNat_natCast]
  constructor
  . intro h
    by_cases hover : Overlaps d s n
    . right
      intro k hk
      rw [← hinside k hk, ← h, copyUp_inside hr hk, origin, if_pos hover.1]
    . exact .inl hover
  . intro h
    rw [copyUp_eq hr]
    funext a
    unfold moved
    split
    . next ha =>
      unfold origin
      split
      . next hlt =>
        rcases h with hfar | hrepeats
        . rw [Nat.mod_eq_of_lt]
          unfold Overlaps at hfar
          omega
        . exact (hrepeats (a - d) (by omega)).symm
      . rfl
    . rfl

-- Three bytes are moved by one.
theorem memmoves_agree_iff_back
    : ulibMemmove 100 101 3 UInt8.ofNat = kernelMemmove 100 101 3 UInt8.ofNat ∧
      kernelMemmove 100 101 3 UInt8.ofNat = moved 100 101 3 UInt8.ofNat :=
  (memmoves_agree_iff (d := 100) (s := 101) (n := 3) ⟨by decide, by decide, by decide, by decide⟩ UInt8.ofNat).mpr
    (.inl (by unfold Overlaps; omega))

theorem ulibMemmove_smears
    : ¬ ∀ (d s n : Nat) (m : Memory), Regions d s n →
        ulibMemmove d s n m = kernelMemmove d s n m ∧ kernelMemmove d s n m = moved d s n m := by
  intro h
  have heq := (h 101 100 2 (fun a => if a = 100 then 1 else 2) ⟨by decide, by decide, by decide, by decide⟩).1
  exact absurd (congrFun heq 102) (by decide)

end Xv6.Memmove
