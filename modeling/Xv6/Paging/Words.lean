import Xv6.Paging.Impl

/-!
Addresses and page numbers, and the two parts of an entry.
-/

namespace Xv6.Paging

-- The address of the page with the number `v`.
def addr (v : Nat) : Word :=
  BitVec.ofNat 32 (v * 4096)

def present (w : Word) : Bool :=
  w &&& PTE_P ≠ 0

def Aligned (w : Word) : Prop :=
  w &&& 0xFFF = 0

instance (w : Word) : Decidable (Aligned w) :=
  inferInstanceAs (Decidable (_ = _))

variable {va w p flags : Word} {v : Nat}

theorem PTX_eq (va : Word) : PTX va = va.toNat / 4096 % 1024 := by
  unfold PTX
  rw [BitVec.toNat_and, BitVec.toNat_ushiftRight, Nat.shiftRight_eq_div_pow]
  exact Nat.and_two_pow_sub_one_eq_mod _ 10

theorem PDX_eq (va : Word) : PDX va = va.toNat / 4096 / 1024 := by
  have hlt := va.isLt
  have hmod := Nat.and_two_pow_sub_one_eq_mod (va.toNat / 2 ^ 22) 10
  unfold PDX
  rw [BitVec.toNat_and, BitVec.toNat_ushiftRight, Nat.shiftRight_eq_div_pow]
  refine hmod.trans ?_
  omega

theorem addr_toNat (hv : v < 2 ^ 20) : (addr v).toNat = v * 4096 := by
  unfold addr
  rw [BitVec.toNat_ofNat, Nat.mod_eq_of_lt (by omega)]

theorem PTE_FLAGS_toNat (w : Word) : (PTE_FLAGS w).toNat = w.toNat % 4096 := by
  unfold PTE_FLAGS
  rw [BitVec.toNat_and]
  exact Nat.and_two_pow_sub_one_eq_mod _ 12

-- A word is its address and its flags.
theorem PTE_ADDR_or_FLAGS (w : Word) : PTE_ADDR w ||| PTE_FLAGS w = w := by
  have hones : (~~~0xFFF : Word) ||| 0xFFF = BitVec.allOnes 32 := by decide
  unfold PTE_ADDR PTE_FLAGS
  rw [← BitVec.and_or_distrib_left, hones, BitVec.and_allOnes]

theorem PTE_ADDR_toNat (w : Word) : (PTE_ADDR w).toNat = w.toNat / 4096 * 4096 := by
  have hdisjoint : PTE_ADDR w &&& PTE_FLAGS w = 0#32 := by
    have hzero : (~~~0xFFF : Word) &&& 0xFFF = 0#32 := by decide
    unfold PTE_ADDR PTE_FLAGS
    rw [BitVec.and_assoc, BitVec.and_comm w 0xFFF, ← BitVec.and_assoc (~~~0xFFF), hzero, BitVec.zero_and,
      BitVec.and_zero]
  have hsum : PTE_ADDR w + PTE_FLAGS w = w := by
    rw [BitVec.add_eq_or_of_and_eq_zero _ _ hdisjoint, PTE_ADDR_or_FLAGS]
  have hnat := congrArg BitVec.toNat hsum
  have haddr : (PTE_ADDR w).toNat ≤ w.toNat := by
    unfold PTE_ADDR
    rw [BitVec.toNat_and]
    exact Nat.and_le_left
  have hflags := PTE_FLAGS_toNat w
  rw [BitVec.toNat_add] at hnat
  have hlt := w.isLt
  omega

theorem PGROUNDDOWN_toNat (a : Word) : (PGROUNDDOWN a).toNat = a.toNat / 4096 * 4096 :=
  PTE_ADDR_toNat a

theorem aligned_iff : Aligned p ↔ p.toNat % 4096 = 0 := by
  rw [← PTE_FLAGS_toNat]
  exact BitVec.toNat_inj.symm

theorem PTE_ADDR_eq (hp : Aligned p) : PTE_ADDR p = p := by
  have hor := PTE_ADDR_or_FLAGS p
  rwa [show PTE_FLAGS p = 0#32 from hp, BitVec.or_zero] at hor

theorem PTE_ADDR_or (hp : Aligned p) (hflags : PTE_ADDR flags = 0#32) : PTE_ADDR (p ||| flags) = p := by
  have hor : PTE_ADDR (p ||| flags) = PTE_ADDR p ||| PTE_ADDR flags := BitVec.and_or_distrib_right
  rw [hor, hflags, BitVec.or_zero, PTE_ADDR_eq hp]

theorem PTE_FLAGS_or (hp : Aligned p) (hflags : PTE_ADDR flags = 0#32) : PTE_FLAGS (p ||| flags) = flags := by
  have hor : PTE_FLAGS (p ||| flags) = PTE_FLAGS p ||| PTE_FLAGS flags := BitVec.and_or_distrib_right
  have hself := PTE_ADDR_or_FLAGS flags
  rw [hflags, BitVec.zero_or] at hself
  rw [hor, show PTE_FLAGS p = 0#32 from hp, BitVec.zero_or, hself]

theorem present_or (w : Word) (h : present flags = true) : present (w ||| flags) = true := by
  have hne : flags &&& PTE_P ≠ 0#32 := of_decide_eq_true h
  apply decide_eq_true
  rw [BitVec.and_or_distrib_right]
  intro hzero
  exact hne (BitVec.or_eq_zero_iff.mp hzero).2

end Xv6.Paging
