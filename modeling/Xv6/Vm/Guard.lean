import Xv6.Vm.Argv
import Xv6.Vm.Lemmas.Fault

/-!
The page fault handler and the guard page below the stack. The page is present, only not for the user, and
the handler takes every fault below `sz` for one on a page that is missing.
-/

namespace Xv6.Vm

-- What the page table lets the user do.
def Proc.allows (x : Proc) (va : Nat) (write : Bool) : Bool :=
  if write then x.writable va else x.accessible va

-- The page is there, and the handler finds a page to map over it.
def HitsGuard (x : Proc) (m : Mem) (va : Nat) : Prop :=
  InReach x va ∧ ¬ Absent x va ∧ m.free ≠ []

theorem pgfault_stops_iff {L : Layout} {x : Proc} {m : Mem} {va : Nat} (hd : x.pgdir.Wf)
    (hs : m.Sound (Valid L) x.pgdir.frames) (hsz : x.sz < 2 ^ 32)
    : (∃ why, pgfault L va x m = .error why) ↔ HitsGuard x m va := by
  unfold HitsGuard
  cases pgfault_cases hd hs hsz va with
  | out hout heq =>
    rw [heq]
    exact iff_of_false (by simp) fun h => hout h.1
  | served hr habsent hroom d m1 Δ heq hgrows hfresh =>
    rw [heq]
    exact iff_of_false (by simp) fun h => h.2.1 habsent
  | failed hr habsent hroom m1 heq =>
    rw [heq]
    exact iff_of_false (by simp) fun h => h.2.1 habsent
  | dropped hr hpresent hfree m1 heq =>
    rw [heq]
    exact iff_of_false (by simp) fun h => h.2.2 hfree
  | remap hr hpresent hfree heq =>
    rw [heq]
    exact iff_of_true ⟨_, rfl⟩ ⟨hr, hpresent, hfree⟩

-- A user access below `KERNBASE` that the page table does not let through.
def UserFault (s : State) (e : Event) (p : Slot) (va : Nat) (x : Proc) : Prop :=
  e = .pgfault p va ∧ s.procs p = some x ∧ va < KERNBASE ∧ ∃ write, x.allows va write = false

/--
In every run from `userinit` on, the handler of a user's page fault stops the kernel if and only if the page
of the address is present, the address is below `sz`, the page ends below `KERNBASE` and the free list is not
empty. A run ends with a `growproc` that shrinks a process from above `KERNBASE` and frees a page that the kernel
uses.
-/
theorem user_fault_stops_iff_hits_guard {L : Layout} {init : List UInt8} {m : Mem} {s : State}
    (hs : m.Sound (Valid L) 0) (hboot : userinit L init m = .ok s) (es : List Event)
    : Machine.Along (State.step L) (fun s e o _ => ∀ p va x, UserFault s e p va x →
        ((∃ why, o = .stop why) ↔ HitsGuard x s.mem va)) s es := by
  apply Machine.along_of_invariant (I := Inv L) _ (userinit_inv hs hboot).1 (Machine.along_true s es)
  intro s e o s' hI h _
  refine ⟨?_, step_inv hI h⟩
  rintro p va x ⟨rfl, hp, -, -⟩
  rw [← pgfault_stops_iff (hI.wf p x hp) (hI.sound_pgdir hp) (hI.sz p x hp)]
  rcases pgfault_step h hp with ⟨why, heq, hstop⟩ | ⟨x', m', heq, -, rfl⟩
  . exact iff_of_true ⟨why, congrArg Prod.snd hstop⟩ ⟨why, heq⟩
  . rw [heq]
    exact iff_of_false (by simp) (by simp)

theorem user_fault_stops_iff_hits_guard_boot
    : ∃ s, userinit Layout.small [] Mem.small = .ok s ∧
        Machine.Along (State.step Layout.small) (fun s e o _ => ∀ p va x, UserFault s e p va x →
          ((∃ why, o = .stop why) ↔ HitsGuard x s.mem va)) s [.mmap 0 4096, .pgfault 0 4096] := by
  obtain ⟨d, kstack, m, hboot, -⟩ := Mem.small_boot
  exact ⟨_, hboot, user_fault_stops_iff_hits_guard Mem.small_sound hboot _⟩

-- `exec` of the empty program, which starts at the address 0, where its guard page is.
theorem guard_page_access_panics
    : ∃ s, userinit Layout.small [] Mem.small = .ok s ∧
        ¬ Machine.Along (State.step Layout.small) (fun s e o _ => ∀ p va x, UserFault s e p va x →
          ∀ why, o ≠ .stop why) s [.exec 0 (some emptyElf) [], .pgfault 0 0] := by
  obtain ⟨d, kstack, m, hboot, -, -, hlen⟩ := Mem.small_boot
  refine ⟨_, hboot, ?_⟩
  intro hall
  have hinv := (userinit_inv Mem.small_sound hboot).1
  have hp : (bootState d kstack m).procs 0
      = some { sz := PGSIZE, pgdir := d, kstack := kstack, killed := false } := rfl
  obtain ⟨image, m1, hexec, hsz, hpresent, huser, hfree⟩ := exec_emptyElf [] (hinv.wf 0 _ hp)
    (hinv.sound_pgdir hp) (by show 68 ≤ m.free.length; omega) (by decide) (by decide)
  generalize hx1 : ({ sz := image.sz, pgdir := image.pgdir, kstack := kstack, killed := false } : Proc) = x1
  have hstep : (bootState d kstack m).step Layout.small (.exec 0 (some emptyElf) [])
      = some ((bootState d kstack m).set 0 (some x1) m1, .ret 0) := by
    unfold State.step
    dsimp only
    rw [hp, if_neg (by simp [bootState]), Option.bind_some]
    dsimp only
    have hexec' : Vm.exec Layout.small (some emptyElf) [] d (bootState d kstack m).mem = .ok (some image, m1) := hexec
    rw [hexec', ← hx1]
  have hinv1 := step_inv hinv hstep
  have hp1 : ((bootState d kstack m).set 0 (some x1) m1).procs 0 = some x1 := by
    rw [State.set_procs, if_pos rfl]
  have hguard : HitsGuard x1 m1 0 := by
    subst hx1
    refine ⟨⟨?_, by decide⟩, ?_, hfree⟩
    . show 0 < image.sz
      rw [hsz]
      decide
    . unfold Absent
      rw [Nat.zero_div, hpresent]
      simp
  rw [Machine.along_cons hstep] at hall
  obtain ⟨why, hstop⟩ := (pgfault_stops_iff (hinv1.wf 0 x1 hp1) (hinv1.sound_pgdir hp1) (hinv1.sz 0 x1 hp1)).mpr hguard
  have hstep1 : ((bootState d kstack m).set 0 (some x1) m1).step Layout.small (.pgfault 0 0)
      = some (((bootState d kstack m).set 0 (some x1) m1).stop why) := by
    have hstop' : pgfault Layout.small 0 x1 ((bootState d kstack m).set 0 (some x1) m1).mem = .error why := hstop
    unfold State.step
    dsimp only
    rw [hp1, if_neg (by simp [bootState, State.set]), Option.bind_some, hstop']
  rw [Machine.along_cons hstep1] at hall
  refine hall.2.1 0 0 x1 ⟨rfl, hp1, by decide, false, ?_⟩ why rfl
  subst hx1
  simp [Proc.allows, Proc.accessible, huser]

end Xv6.Vm
