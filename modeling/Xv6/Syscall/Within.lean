import Xv6.Syscall.Impl
import Xv6.Vm.Bound

/-!
The kernel accesses user memory only below the size of the process. The checks compare sums that could wrap around, but
with `sz` at most `KERNBASE` none of those that pass does.
-/

namespace Xv6.Syscall

open Vm Trace

def Range.Within (sz : Nat) (r : Range) : Prop :=
  r.addr + r.len ≤ sz

-- A string with the zero that ends it.
def StrWithin (sz : Nat) (s : Nat × Nat) : Prop :=
  s.1 + (s.2 + 1) ≤ sz

variable {read : Nat → UInt8} {sz esp addr n off : Nat} {ofile : Nat → Option OpenFile}

theorem uint_of_within (hsz : sz ≤ KERNBASE) (h : addr ≤ sz) : uint addr = addr := by
  apply Nat.mod_eq_of_lt
  unfold KERNBASE at hsz
  omega

theorem access_within (h : addr + n ≤ sz) : Emits (Range.Within sz) (access addr n) := by
  apply Emits.emit
  intro r hr
  rw [List.mem_singleton.mp hr]
  exact h

theorem bytes_within (hsz : sz ≤ KERNBASE) (h : addr + n ≤ sz) : Emits (Range.Within sz) (bytes addr n) := by
  apply Emits.emit
  intro r hr
  obtain ⟨i, hi, rfl⟩ := List.mem_map.mp hr
  rw [List.mem_range] at hi
  rw [uint_of_within hsz (by omega)]
  show addr + i + 1 ≤ sz
  omega

theorem blocks_within (hsz : sz ≤ KERNBASE) (h : addr + n ≤ sz) : ∀ r ∈ blocks addr off n, r.Within sz := by
  induction n using Nat.strong_induction_on generalizing addr off with
  | h n ih =>
    rw [blocks]
    split
    . intro r hr
      cases hr
    . next hn =>
      have hmod := Nat.mod_lt off (show BSIZE > 0 by decide)
      obtain ⟨m, hm⟩ : ∃ m, m = min n (BSIZE - off % BSIZE) := ⟨_, rfl⟩
      dsimp only
      rw [← hm, uint_of_within hsz (by omega)]
      intro r hr
      rcases List.mem_cons.mp hr with rfl | hr
      . show addr + m ≤ sz
        omega
      . exact ih (n - m) (by omega) (by omega) r hr

section

theorem fetchint_within (hsz : sz ≤ KERNBASE) : Emits (Range.Within sz) (fetchint read sz addr) := by
  unfold fetchint
  split
  . exact Emits.stop _
  . next i hi =>
    apply Emits.bind
    . apply access_within
      unfold Vm.fetchint at hi
      split at hi
      . cases hi
      . next hpass =>
        unfold uint at hpass
        unfold KERNBASE at hsz
        omega
    . intro _ _
      exact Emits.pure _

theorem fetchstr_length {len : Nat} (h : Vm.fetchstr read sz addr = some len) : StrWithin sz (addr, len) := by
  unfold Vm.fetchstr at h
  split at h
  . cases h
  . obtain ⟨s, hs, rfl⟩ := Option.map_eq_some_iff.mp h
    have := fetchstrLoop_eq_some hs
    show addr + (s - addr + 1) ≤ sz
    omega

theorem fetchstr_within : Emits (Range.Within sz) (fetchstr read sz addr) := by
  unfold fetchstr
  split
  . exact Emits.stop _
  . split
    . apply Emits.bind
      . apply access_within
        omega
      . intro _ _
        exact Emits.stop _
    . next len hlen =>
      apply Emits.bind
      . apply access_within
        exact fetchstr_length hlen
      . intro _ _
        exact Emits.pure _

theorem fetchstr_val {s : Nat × Nat} (h : (fetchstr read sz addr).val = .ok s) : StrWithin sz s := by
  unfold fetchstr at h
  split at h
  . cases h
  . split at h
    . cases h
    . next len hlen =>
      cases h
      exact fetchstr_length hlen

theorem argint_within (hsz : sz ≤ KERNBASE) : Emits (Range.Within sz) (argint read sz esp n) :=
  fetchint_within hsz

theorem argptr_within {size : Word} (hsz : sz ≤ KERNBASE) : Emits (Range.Within sz) (argptr read sz esp n size) := by
  apply Emits.bind (argint_within hsz)
  intro i _
  split
  . exact Emits.stop _
  . exact Emits.pure _

-- A size that passes is not negative, so the sum that is compared does not wrap around.
theorem argptr_val {size : Word} {p : Nat} (hsz : sz ≤ KERNBASE) (h : (argptr read sz esp n size).val = .ok p)
    : p + size.toNat ≤ sz := by
  obtain ⟨i, _, h⟩ := val_bind_eq_ok h
  split at h
  . cases h
  . next hpass =>
    cases h
    have hpos : size.toNat < 2 ^ 31 := by
      have := size.isLt
      rw [BitVec.toInt_eq_toNat_cond] at hpass
      split at hpass
      . omega
      . omega
    unfold uint at hpass
    unfold KERNBASE at hsz
    omega

theorem argstr_within (hsz : sz ≤ KERNBASE) : Emits (Range.Within sz) (argstr read sz esp n) := by
  apply Emits.bind (argint_within hsz)
  intro _ _
  exact fetchstr_within

theorem argstr_val {s : Nat × Nat} (h : (argstr read sz esp n).val = .ok s) : StrWithin sz s := by
  obtain ⟨_, _, h⟩ := val_bind_eq_ok h
  exact fetchstr_val h

theorem argfd_within (hsz : sz ≤ KERNBASE) : Emits (Range.Within sz) (argfd read sz esp ofile n) := by
  apply Emits.bind (argint_within hsz)
  intro fd _
  split
  . exact Emits.stop _
  . split
    . exact Emits.stop _
    . exact Emits.pure _

end

section

variable {t : Target} {f : OpenFile}

theorem readi_within (hsz : sz ≤ KERNBASE) (h : addr + n ≤ sz) : Emits (Range.Within sz) (readi t addr n) := by
  unfold readi
  split
  . exact Emits.stop _
  . apply bytes_within hsz
    omega
  . next size off =>
    split
    . exact Emits.stop _
    . next hgood =>
      apply Emits.emit
      apply blocks_within hsz
      split
      . next hend =>
        unfold uint at hgood hend
        omega
      . exact h

theorem writei_within (hsz : sz ≤ KERNBASE) (h : addr + n ≤ sz) : Emits (Range.Within sz) (writei t addr n) := by
  unfold writei
  split
  . exact Emits.stop _
  . apply Emits.bind (bytes_within hsz h)
    intro _ _
    exact Emits.pure _
  . split
    . exact Emits.stop _
    . split
      . exact Emits.stop _
      . apply Emits.bind (Emits.emit (blocks_within hsz h))
        intro _ _
        exact Emits.pure _

theorem writeChunks_within (hsz : sz ≤ KERNBASE) (h : addr + n ≤ sz)
    : Emits (Range.Within sz) (writeChunks t addr n) := by
  induction n using Nat.strong_induction_on generalizing t addr with
  | h n ih =>
    have hmax : 0 < maxWrite := by decide
    rw [writeChunks]
    split
    . exact Emits.pure _
    . next hn =>
      dsimp only
      rw [uint_of_within hsz (by omega)]
      apply Emits.bind
      . apply writei_within hsz
        omega
      . intro t' _
        apply ih
        . omega
        . omega

theorem fileread_within (hsz : sz ≤ KERNBASE) (h : addr + n ≤ sz) : Emits (Range.Within sz) (fileread f addr n) := by
  unfold fileread
  split
  . exact Emits.stop _
  . split
    . apply bytes_within hsz
      omega
    . exact readi_within hsz h

theorem filewrite_within (hsz : sz ≤ KERNBASE) (h : addr + n ≤ sz) : Emits (Range.Within sz) (filewrite f addr n) := by
  unfold filewrite
  split
  . exact Emits.stop _
  . split
    . apply bytes_within hsz
      omega
    . exact writeChunks_within hsz h

theorem filestat_within (hsz : sz ≤ KERNBASE) (h : addr + STAT ≤ sz) : Emits (Range.Within sz) (filestat f addr) := by
  have hfields : ∀ x ∈ statFields, x.1 + x.2 ≤ STAT := by decide
  unfold filestat
  split
  . exact Emits.stop _
  . apply Emits.emit
    intro r hr
    obtain ⟨x, hx, rfl⟩ := List.mem_map.mp hr
    have := hfields x hx
    rw [uint_of_within hsz (by omega)]
    show addr + x.1 + x.2 ≤ sz
    omega

theorem namex_within {s : Nat × Nat} (h : StrWithin sz s) : Emits (Range.Within sz) (namex s) :=
  access_within h

theorem exec_within {path : Nat × Nat} {argv : List (Nat × Nat)} (h : StrWithin sz path)
    (hargv : ∀ arg ∈ argv, StrWithin sz arg)
    : Emits (Range.Within sz) (exec path argv) := by
  apply Emits.bind (namex_within h)
  intro _ _
  apply Emits.bind
  . apply Emits.emit
    intro r hr
    obtain ⟨arg, harg, rfl⟩ := List.mem_map.mp hr
    exact hargv arg harg
  . intro _ _
    exact access_within h

theorem execArgs_within (hsz : sz ≤ KERNBASE) (uargv left i : Nat)
    : Emits (Range.Within sz) (execArgs read sz uargv left i) := by
  induction left generalizing i with
  | zero => exact Emits.stop _
  | succ left ih =>
    apply Emits.bind (fetchint_within hsz)
    intro uarg _
    split
    . exact Emits.pure _
    . apply Emits.bind fetchstr_within
      intro arg _
      apply Emits.bind (ih (i + 1))
      intro rest _
      exact Emits.pure _

theorem execArgs_val {uargv left i : Nat} {argv : List (Nat × Nat)}
    (h : (execArgs read sz uargv left i).val = .ok argv)
    : ∀ arg ∈ argv, StrWithin sz arg := by
  induction left generalizing i argv with
  | zero => cases h
  | succ left ih =>
    obtain ⟨uarg, _, h⟩ := val_bind_eq_ok h
    split at h
    . cases h
      intro arg harg
      cases harg
    . obtain ⟨arg, harg, h⟩ := val_bind_eq_ok h
      obtain ⟨rest, hrest, h⟩ := val_bind_eq_ok h
      cases h
      intro arg' harg'
      rcases List.mem_cons.mp harg' with rfl | hmem
      . exact fetchstr_val harg
      . exact ih hrest arg' hmem

end

-- A call that only takes a path, after the checks of its other arguments.
theorem path_within (hsz : sz ≤ KERNBASE) {k : Nat × Nat → Call Unit}
    (hk : ∀ path, StrWithin sz path → Emits (Range.Within sz) (k path))
    : Emits (Range.Within sz) (argstr read sz esp n >>= k) := by
  apply Emits.bind (argstr_within hsz)
  intro path hpath
  exact hk path (argstr_val hpath)

theorem toNat_ofNat_of_val (h : (argint read sz esp n).val = .ok off) : (BitVec.ofNat 32 off).toNat = off := by
  apply Nat.mod_eq_of_lt
  unfold argint fetchint at h
  split at h
  . cases h
  . next i hi =>
    cases h
    unfold Vm.fetchint at hi
    split at hi
    . cases hi
    . cases hi
      exact le32_lt _ _

theorem buffer_within (hsz : sz ≤ KERNBASE) {k : OpenFile → Nat → Nat → Call Unit}
    (hk : ∀ f p n, p + n ≤ sz → Emits (Range.Within sz) (k f p n))
    : Emits (Range.Within sz) (do
        let f ← argfd read sz esp ofile 0
        let n ← argint read sz esp 2
        let p ← argptr read sz esp 1 (.ofNat 32 n)
        k f p n) := by
  apply Emits.bind (argfd_within hsz)
  intro f _
  apply Emits.bind (argint_within hsz)
  intro n hn
  apply Emits.bind (argptr_within hsz)
  intro p hp
  have := argptr_val hsz hp
  rw [toNat_ofNat_of_val hn] at this
  exact hk f p n this

/-- Everything that a system call accesses lies below `sz`, wherever its stack pointer is. -/
theorem syscall_within (read : Nat → UInt8) (sz esp : Nat) (ofile : Nat → Option OpenFile) (hsz : sz ≤ KERNBASE)
    (c : Number)
    : ∀ r ∈ (syscall read sz esp ofile c).emits, r.addr + r.len ≤ sz := by
  show Emits (Range.Within sz) _
  cases c with
  | read => exact buffer_within hsz fun f p n h => fileread_within hsz h
  | write => exact buffer_within hsz fun f p n h => filewrite_within hsz h
  | fstat =>
    apply Emits.bind (argfd_within hsz)
    intro f _
    apply Emits.bind (argptr_within hsz)
    intro st hst
    exact filestat_within hsz (argptr_val hsz hst)
  | pipe =>
    apply Emits.bind (argptr_within hsz)
    intro fd hfd
    have hfd : fd + 8 ≤ sz := argptr_val hsz hfd
    rw [uint_of_within hsz (by omega)]
    apply Emits.bind (access_within (by omega))
    intro _ _
    exact access_within (by omega)
  | wait2 =>
    apply Emits.bind (argptr_within hsz)
    intro wtime hwtime
    apply Emits.bind (argptr_within hsz)
    intro rutime hrutime
    apply Emits.bind (access_within (argptr_val hsz hwtime))
    intro _ _
    exact access_within (argptr_val hsz hrutime)
  | exec =>
    apply path_within hsz
    intro path hpath
    apply Emits.bind (argint_within hsz)
    intro uargv _
    apply Emits.bind (execArgs_within hsz uargv MAXARG 0)
    intro argv hargv
    exact exec_within hpath (execArgs_val hargv)
  | link =>
    apply path_within hsz
    intro old hold
    apply path_within hsz
    intro new hnew
    apply Emits.bind (namex_within hold)
    intro _ _
    exact namex_within hnew
  | «open» =>
    apply path_within hsz
    intro path hpath
    apply Emits.bind (argint_within hsz)
    intro _ _
    exact namex_within hpath
  | mknod =>
    apply path_within hsz
    intro path hpath
    apply Emits.bind (argint_within hsz)
    intro _ _
    apply Emits.bind (argint_within hsz)
    intro _ _
    exact namex_within hpath
  | unlink => exact path_within hsz fun path hpath => namex_within hpath
  | mkdir => exact path_within hsz fun path hpath => namex_within hpath
  | chdir => exact path_within hsz fun path hpath => namex_within hpath

-- The address of the argument wraps around to 0.
theorem syscall_within_wraps
    : (syscall (fun _ => 0) 64 (2 ^ 32 - 4) (fun _ => none) .pipe).emits = [⟨0, 4⟩, ⟨0, 4⟩, ⟨4, 4⟩] ∧
      ∀ r ∈ (syscall (fun _ => 0) 64 (2 ^ 32 - 4) (fun _ => none) .pipe).emits, r.addr + r.len ≤ 64 :=
  ⟨by decide, syscall_within (fun _ => 0) 64 (2 ^ 32 - 4) (fun _ => none) (by decide) .pipe⟩

end Xv6.Syscall
