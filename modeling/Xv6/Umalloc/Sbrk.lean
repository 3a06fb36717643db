import Xv6.Umalloc.Heap
import Xv6.Umalloc.Process

/-!
What `sbrk` answers while it is only asked for more memory.
-/

namespace Xv6.Umalloc.Process

open Tiling

variable {room : Calls → Nat → Bool} {p0 p p' : Proc} {base text n : Nat} {calls : Calls}

-- The process when `malloc` is called for the first time.
structure Layout (p0 : Proc) (base text : Nat) : Prop where
  aligned : PGSIZE ∣ p0.sz
  lt : p0.sz < KERNBASE
  base_pos : 0 < base
  base_le : base + 8 ≤ p0.sz
  mapped : ∀ i, p0.mapped i = true → i * PGSIZE < p0.sz
  text : p0.mapped text = true

-- The calls so far are those of `malloc`, with the results that they have had.
def History (room : Calls → Nat → Bool) (p0 : Proc) : Calls → Prop
  | [] => True
  | (n, r) :: calls =>
    0 < n ∧ n < 2 ^ 31 ∧ 8 ∣ n ∧ r = (sysSbrk (room calls) (proc room p0 calls) n).2 ∧ History room p0 calls

instance decidableHistory (room : Calls → Nat → Bool) (p0 : Proc) : (calls : Calls) → Decidable (History room p0 calls)
  | [] => .isTrue trivial
  | (_, _) :: calls =>
    have := decidableHistory room p0 calls
    inferInstanceAs (Decidable (_ ∧ _))

-- The break grows from `p0.sz` on, and the pages below it are there.
structure Steady (p0 : Proc) (text : Nat) (p : Proc) : Prop where
  le : p0.sz ≤ p.sz
  lt : p.sz < KERNBASE
  dvd : 8 ∣ p.sz
  mapped : ∀ i, p0.sz ≤ i * PGSIZE → (p.mapped i = true ↔ i * PGSIZE < p.sz)
  text : p.mapped text = true

theorem Layout.steady (h : Layout p0 base text) : Steady p0 text p0 where
  le := Nat.le_refl _
  lt := h.lt
  dvd := Nat.dvd_trans (by decide) h.aligned
  mapped i hi := by
    constructor
    . exact h.mapped i
    . intro hlt
      omega
  text := h.text

theorem le_PGROUNDUP (a : Nat) : a ≤ PGROUNDUP a := by
  unfold PGROUNDUP PGSIZE
  omega

theorem PGROUNDUP_le {i a : Nat} (h : a ≤ i * PGSIZE) : PGROUNDUP a ≤ i * PGSIZE := by
  unfold PGROUNDUP PGSIZE at *
  omega

theorem between_iff {lo hi i : Nat} : between lo hi i = true ↔ lo ≤ i * PGSIZE ∧ i * PGSIZE < hi := by
  have := le_PGROUNDUP lo
  simp only [between, Bool.decide_and, Bool.and_eq_true, decide_eq_true_eq]
  constructor
  . rintro ⟨hlo, hhi⟩
    omega
  . rintro ⟨hlo, hhi⟩
    exact ⟨PGROUNDUP_le hlo, hhi⟩

theorem allocuvm_cases (room mapped : Nat → Bool) {oldsz newsz : Nat} (h : oldsz < newsz)
    : (allocuvm room mapped oldsz newsz).2 = 0 ∧
        ((allocuvm room mapped oldsz newsz).1 = mapped ∨
          (allocuvm room mapped oldsz newsz).1 = fun i => mapped i && !between oldsz newsz i) ∨
      newsz < KERNBASE ∧ allocuvm room mapped oldsz newsz = (fun i => mapped i || between oldsz newsz i, newsz) := by
  unfold allocuvm
  by_cases hkern : newsz ≥ KERNBASE
  . rw [if_pos hkern]
    exact .inl ⟨rfl, .inl rfl⟩
  . rw [if_neg hkern, if_neg (by omega)]
    split
    . exact .inr ⟨by omega, rfl⟩
    . left
      unfold deallocuvm
      rw [if_neg (by omega)]
      exact ⟨rfl, .inr rfl⟩

/-- What a call of `sbrk` with a positive number can do. -/
theorem sysSbrk_cases (room : Nat → Bool) (hsz : p.sz < KERNBASE) (hn : 0 < n) (hlt : n < 2 ^ 31)
    : (sysSbrk room p n).2 = none ∧ (sysSbrk room p n).1.sz = p.sz ∧
        ((sysSbrk room p n).1.mapped = p.mapped ∨
          (sysSbrk room p n).1.mapped = fun i => p.mapped i && !between p.sz (p.sz + n) i) ∨
      (sysSbrk room p n).2 = some p.sz ∧ p.sz + n < KERNBASE ∧
        (sysSbrk room p n).1 = ⟨p.sz + n, fun i => p.mapped i || between p.sz (p.sz + n) i⟩ := by
  have hnew : ((p.sz + (n : Int)) % 2 ^ 32).toNat = p.sz + n := by
    unfold KERNBASE at hsz
    omega
  have hpos : (n : Int) > 0 := by omega
  unfold sysSbrk growproc
  rw [if_pos hlt]
  simp only [hnew, if_pos hpos]
  rcases allocuvm_cases room p.mapped (show p.sz < p.sz + n by omega) with ⟨hzero, hmapped⟩ | ⟨hkern, heq⟩
  . rw [if_pos hzero]
    exact .inl ⟨rfl, rfl, hmapped⟩
  . have hne : ¬ (p.sz + n = 0) := by omega
    simp only [heq, if_neg hne]
    exact .inr ⟨rfl, hkern, trivial⟩

theorem Steady.grow (h : Steady p0 text p) (hlayout : Layout p0 base text) (room : Nat → Bool) (hn : 0 < n)
    (hlt : n < 2 ^ 31) (hdvd : 8 ∣ n)
    : Steady p0 text (sysSbrk room p n).1 := by
  have htext := hlayout.mapped text hlayout.text
  have hle := h.le
  rcases sysSbrk_cases room h.lt hn hlt with ⟨-, hsz, hmapped⟩ | ⟨-, hkern, heq⟩
  . refine ⟨by omega, by have := h.lt; omega, hsz ▸ h.dvd, ?_, ?_⟩
    . intro i hi
      have hold := h.mapped i hi
      rw [hsz]
      rcases hmapped with hmapped | hmapped
      . rw [hmapped]
        exact hold
      . rw [hmapped, Bool.and_eq_true, hold, Bool.not_eq_true', Bool.eq_false_iff, ne_eq, between_iff]
        omega
    . have hnot : between p.sz (p.sz + n) text = false := by
        rw [Bool.eq_false_iff, ne_eq, between_iff]
        omega
      rcases hmapped with hmapped | hmapped
      . rw [hmapped]
        exact h.text
      . rw [hmapped]
        simp [hnot, h.text]
  . rw [heq]
    refine ⟨by dsimp only; omega, hkern, Nat.dvd_add h.dvd hdvd, ?_, ?_⟩
    . intro i hi
      dsimp only
      rw [Bool.or_eq_true, h.mapped i hi, between_iff]
      omega
    . simp [h.text]

theorem History.steady (hlayout : Layout p0 base text) (h : History room p0 calls)
    : Steady p0 text (proc room p0 calls) := by
  induction calls with
  | nil => exact hlayout.steady
  | cons c calls ih =>
    obtain ⟨hn, hlt, hdvd, -, hrest⟩ := h
    exact (ih hrest).grow hlayout _ hn hlt hdvd

theorem History.regions_le (hlayout : Layout p0 base text) (h : History room p0 calls)
    : ∀ r ∈ regions calls, p0.sz ≤ r.start ∧ r.start + r.length ≤ (proc room p0 calls).sz := by
  induction calls with
  | nil => nofun
  | cons c calls ih =>
    obtain ⟨n, a⟩ := c
    obtain ⟨hn, hlt, hdvd, ha, hrest⟩ := h
    have hsteady := hrest.steady hlayout
    have hle := hsteady.le
    intro r hr
    have hsz : (proc room p0 ((n, a) :: calls)).sz = (sysSbrk (room calls) (proc room p0 calls) n).1.sz := rfl
    rw [hsz]
    rcases sysSbrk_cases (room calls) hsteady.lt hn hlt with ⟨hnone, heq, -⟩ | ⟨hsome, -, heq⟩
    . rw [heq]
      rw [hnone] at ha
      subst ha
      exact ih hrest r hr
    . rw [heq]
      rw [hsome] at ha
      subst ha
      have hcons : regions ((n, some (proc room p0 calls).sz) :: calls) =
          ⟨(proc room p0 calls).sz, n⟩ :: regions calls :=
        rfl
      rw [hcons] at hr
      rcases List.mem_cons.mp hr with rfl | hr
      . exact ⟨hle, Nat.le_refl _⟩
      . have := ih hrest r hr
        dsimp only
        omega

-- `sbrk` as a function of the calls; histories that have not been are answered with -1.
def sbrk (room : Calls → Nat → Bool) (p0 : Proc) (calls : Calls) (n : Nat) : Option Nat :=
  if History room p0 calls ∧ 0 < n ∧ n < 2 ^ 31 then (sysSbrk (room calls) (proc room p0 calls) n).2 else none

theorem sbrk_eq_some {a : Nat} (h : sbrk room p0 calls n = some a)
    : History room p0 calls ∧ 0 < n ∧ n < 2 ^ 31 ∧ (sysSbrk (room calls) (proc room p0 calls) n).2 = some a := by
  unfold sbrk at h
  split at h
  . next hc => exact ⟨hc.1, hc.2.1, hc.2.2, h⟩
  . cases h

theorem sbrk_of_history (h : History room p0 calls) (hn : 0 < n) (hlt : n < 2 ^ 31)
    : sbrk room p0 calls n = (sysSbrk (room calls) (proc room p0 calls) n).2 :=
  if_pos ⟨h, hn, hlt⟩

theorem fresh (hlayout : Layout p0 base text) : Fresh (sbrk room p0) base where
  base_pos := hlayout.base_pos
  base_le calls n a ha := by
    obtain ⟨hhistory, hn, hlt, hsbrk⟩ := sbrk_eq_some ha
    have hsteady := hhistory.steady hlayout
    have := hsteady.le
    have := hlayout.base_le
    rcases sysSbrk_cases (room calls) hsteady.lt hn hlt with ⟨hnone, -⟩ | ⟨hsome, -⟩
    . rw [hnone] at hsbrk
      cases hsbrk
    . rw [hsome] at hsbrk
      cases hsbrk
      omega
  le calls n a ha := by
    obtain ⟨hhistory, hn, hlt, hsbrk⟩ := sbrk_eq_some ha
    have hsteady := hhistory.steady hlayout
    intro r hr
    have := (hhistory.regions_le hlayout r hr).2
    rcases sysSbrk_cases (room calls) hsteady.lt hn hlt with ⟨hnone, -⟩ | ⟨hsome, -⟩
    . rw [hnone] at hsbrk
      cases hsbrk
    . rw [hsome] at hsbrk
      cases hsbrk
      exact this

end Xv6.Umalloc.Process
