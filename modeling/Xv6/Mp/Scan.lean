import Xv6.Lib.Outcome
import Xv6.Mp.Impl

/-!
The loop of `mpinit` over the entries. At an entry of a type that it does not know it stays where it is.
-/

namespace Xv6.Mp

open Outcome

def known (type : UInt8) : Bool :=
  type ≤ MPLINTR

def entrySize (type : UInt8) : Nat :=
  if type = MPPROC then MPPROCSIZE else ENTRYSIZE

/-- From `p` on the table consists of entries of known types. -/
inductive Readable (conf : Table) (e : Nat) : Nat → Prop where
  | done {p : Nat} (h : e ≤ p) : Readable conf e p
  | entry {p : Nat} (h : p < e) (hknown : known (conf p) = true) (hnext : Readable conf e (p + entrySize (conf p)))
    : Readable conf e p

variable {conf : Table} {e fuel p : Nat} {s s' : State}

theorem entry_known (s : State) (h : known (conf p) = true)
    : (entry conf s p).2 = p + entrySize (conf p) ∧ (entry conf s p).1.ismp = s.ismp ∧
      (s.ncpu ≤ NCPU → (entry conf s p).1.ncpu ≤ NCPU) := by
  have hcases : conf p = MPPROC ∨ conf p = MPIOAPIC ∨ conf p = MPBUS ∨ conf p = MPIOINTR ∨ conf p = MPLINTR := by
    have hle : (conf p).toNat ≤ 4 := UInt8.le_iff_toNat_le.mp (of_decide_eq_true h)
    have htype : ∀ type : UInt8, (conf p).toNat = type.toNat → conf p = type := fun _ => UInt8.toNat_inj.mp
    have hzero := htype MPPROC
    have hone := htype MPBUS
    have htwo := htype MPIOAPIC
    have hthree := htype MPIOINTR
    have hfour := htype MPLINTR
    rcases Nat.le_iff_lt_or_eq.mp hle with hlt | hlast
    . have : (conf p).toNat = 0 ∨ (conf p).toNat = 1 ∨ (conf p).toNat = 2 ∨ (conf p).toNat = 3 := by omega
      rcases this with hp | hp | hp | hp
      . exact .inl (hzero hp)
      . exact .inr (.inr (.inl (hone hp)))
      . exact .inr (.inl (htwo hp))
      . exact .inr (.inr (.inr (.inl (hthree hp))))
    . exact .inr (.inr (.inr (.inr (hfour hlast))))
  unfold entry entrySize
  rcases hcases with hp | hrest
  . rw [if_pos hp, if_pos hp]
    refine ⟨rfl, ?_, ?_⟩
    . dsimp only
      split <;> rfl
    . intro hle
      dsimp only
      split
      . next hlt => exact hlt
      . exact hle
  . have hne : conf p ≠ MPPROC := by
      rcases hrest with hp | hp | hp | hp <;> rw [hp] <;> decide
    rw [if_neg hne, if_neg hne]
    by_cases hio : conf p = MPIOAPIC
    . rw [if_pos hio]
      exact ⟨rfl, rfl, id⟩
    . rw [if_neg hio, if_pos (hrest.resolve_left hio)]
      exact ⟨rfl, rfl, id⟩

theorem entry_unknown (s : State) (h : known (conf p) = false) : (entry conf s p).2 = p := by
  have hne : ∀ type, known type = true → conf p ≠ type := by
    rintro type htype rfl
    rw [h] at htype
    cases htype
  unfold entry
  rw [if_neg (hne _ (by decide)), if_neg (hne _ (by decide)), if_neg]
  rintro (hp | hp | hp)
  . exact hne _ (by decide) hp
  . exact hne _ (by decide) hp
  . exact hne _ (by decide) hp

-- A loop that ends has only met entries that it knows.
theorem readable_of_scan (h : scan conf e fuel s p = some s') : Readable conf e p := by
  induction fuel generalizing s p with
  | zero =>
    unfold scan at h
    split at h
    . cases h
    . next hge => exact .done (Nat.not_lt.mp hge)
  | succ fuel ih =>
    unfold scan at h
    split at h
    . next hlt =>
      have hnext := ih h
      cases hknown : known (conf p) with
      | true =>
        rw [(entry_known s hknown).1] at hnext
        exact .entry hlt hknown hnext
      | false => rwa [entry_unknown s hknown] at hnext
    . next hge => exact .done (Nat.not_lt.mp hge)

theorem scan_of_readable (h : Readable conf e p) (hncpu : s.ncpu ≤ NCPU) (hismp : s.ismp = true)
    : ∃ s', s'.ncpu ≤ NCPU ∧ s'.ismp = true ∧ Settles (fun fuel => scan conf e fuel s p) s' := by
  induction h generalizing s with
  | @done p hge =>
    have hscan : ∀ fuel, scan conf e fuel s p = some s := by
      intro fuel
      cases fuel with
      | zero => rw [scan, if_neg (Nat.not_lt.mpr hge)]
      | succ fuel => rw [scan, if_neg (Nat.not_lt.mpr hge)]
    refine ⟨s, hncpu, hismp, ?_, 0, fun k _ => hscan k⟩
    intro fuel b hb
    rw [hscan fuel] at hb
    exact (Option.some.inj hb).symm
  | entry hlt hknown _ ih =>
    obtain ⟨hnext, hsame, hle⟩ := entry_known s hknown
    obtain ⟨s', hncpu', hismp', hsettles⟩ := ih (hle hncpu) (hsame.trans hismp)
    rw [← hnext] at hsettles
    refine ⟨s', hncpu', hismp', ?_, ?_⟩
    . intro fuel b hb
      cases fuel with
      | zero =>
        rw [scan, if_pos hlt] at hb
        cases hb
      | succ fuel =>
        rw [scan, if_pos hlt] at hb
        exact hsettles.only fuel b hb
    . obtain ⟨n, hn⟩ := hsettles.enough
      refine ⟨n + 1, ?_⟩
      intro k hk
      cases k with
      | zero => omega
      | succ k =>
        rw [scan, if_pos hlt]
        exact hn k (by omega)

theorem mpinit_accepted (h : mpconfig conf = true)
    : mpinit conf = fun fuel => (scan conf conf.length fuel .init MPCONF).map fun s =>
        if s.ismp = false then .error "Didn't find a suitable machine" else .ok s := by
  funext fuel
  rw [mpinit, if_neg (by rw [h]; decide)]

theorem readable_of_settles {r : Except String State} (h : mpconfig conf = true) (hr : Settles (mpinit conf) r)
    : Readable conf conf.length MPCONF := by
  rw [mpinit_accepted h] at hr
  obtain ⟨n, hn⟩ := hr.enough
  obtain ⟨s, hs, -⟩ := Option.map_eq_some_iff.mp (hn n (Nat.le_refl n))
  exact readable_of_scan hs

/-- `mpinit` returns if and only if the table that `mpconfig` has accepted has no entry of an unknown type. -/
theorem mpinit_ends_iff (conf : Table) (h : mpconfig conf = true)
    : (∃ r, Settles (mpinit conf) r ∧ ∀ s, r = .ok s → s.ncpu ≤ NCPU) ↔ Readable conf conf.length MPCONF := by
  constructor
  . rintro ⟨r, hr, -⟩
    exact readable_of_settles h hr
  . intro hreadable
    have hle : State.init.ncpu ≤ NCPU := Nat.zero_le _
    obtain ⟨s, hncpu, hismp, hsettles⟩ := scan_of_readable hreadable hle rfl
    rw [mpinit_accepted h]
    refine ⟨.ok s, hsettles.map ?_ ?_, ?_⟩
    . intro n hn
      rw [hn, Option.map_some, if_neg (by rw [hismp]; decide)]
    . intro n hn
      rw [hn]
      rfl
    . intro s' hs'
      cases hs'
      exact hncpu

-- One processor and nothing else.
def oneProcessor : Table := fun i =>
  ([80, 67, 77, 80, 64, 0, 1, 143] : List UInt8).getD i 0

theorem mpinit_ends_iff_oneProcessor
    : ∃ r, Settles (mpinit oneProcessor) r ∧ ∀ s, r = .ok s → s.ncpu ≤ NCPU :=
  (mpinit_ends_iff oneProcessor (by decide +kernel)).mpr
    (.entry (by decide) (by decide) (.done (by decide)))

-- The only entry has the type 5.
def unknownEntry : Table := fun i =>
  if i = 44 then 5 else ([80, 67, 77, 80, 45, 0, 1, 157] : List UInt8).getD i 0

theorem mpinit_never_ends
    : ¬ ∀ conf, mpconfig conf = true → ∃ r, Settles (mpinit conf) r ∧ ∀ s, r = .ok s → s.ncpu ≤ NCPU := by
  intro h
  have haccepted : mpconfig unknownEntry = true := by decide +kernel
  obtain ⟨r, hr, -⟩ := h unknownEntry haccepted
  cases readable_of_settles haccepted hr with
  | done h => exact absurd h (by decide)
  | entry _ hknown _ => exact absurd hknown (by decide)

end Xv6.Mp
