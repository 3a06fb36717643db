import Xv6.Vm.Lemmas.Boot

/-!
`copyout`. It writes its buffer page by page and stops at the first page that the user may not access. `uva2ka` does
not ask whether there is a page table, so where there is none it reads through a null pointer.
-/

namespace Xv6.Vm

namespace PgDir

-- The pages that `uva2ka` accepts.
def UserPage (d : PgDir) (v : Nat) : Prop :=
  (d.pte v).present = true ∧ (d.pte v).user = true

instance (d : PgDir) (v : Nat) : Decidable (d.UserPage v) :=
  inferInstanceAs (Decidable (_ ∧ _))

-- The byte at the virtual address `a`.
def byte (d : PgDir) (m : Mem) (a : Nat) : UInt8 :=
  m.data (d.pte (a / PGSIZE)).addr (a % PGSIZE)

end PgDir

-- The bytes `bs` have been written at the virtual address `va`, and nothing else has changed.
structure Copied (d : PgDir) (va : Nat) (bs : List UInt8) (m m' : Mem) : Prop where
  byte : ∀ i (h : i < bs.length), d.byte m' (va + i) = bs[i]
  other : ∀ p o, (∀ i < bs.length, (d.pte ((va + i) / PGSIZE)).addr = p → (va + i) % PGSIZE ≠ o) →
    m'.data p o = m.data p o
  free : m'.free = m.free

-- No page has changed except for pages of the user.
structure UserOnly (d : PgDir) (m m' : Mem) : Prop where
  data : ∀ p, (∀ v, d.UserPage v → (d.pte v).addr ≠ p) → m'.data p = m.data p
  free : m'.free = m.free

section

variable {L : Layout} {d : PgDir} {m m1 m' : Mem} {va v : Nat} {bs cs buf : List UInt8}

theorem PgDir.UserPage.lt (hd : d.Wf) (h : d.UserPage v) : v < UPAGES := by
  by_contra hkern
  have := hd.kern v (Nat.not_lt.mp hkern)
  rw [h.2] at this
  cases this

theorem Copied.nil (d : PgDir) (va : Nat) (m : Mem) : Copied d va [] m m where
  byte i h := absurd h (Nat.not_lt_zero i)
  other _ _ _ := rfl
  free := rfl

-- Different addresses of the user are different places of the memory.
theorem PgDir.place_inj {a b : Nat} (hd : d.Wf) (hnodup : d.frames.Nodup) (ha : d.UserPage (a / PGSIZE))
    (hb : d.UserPage (b / PGSIZE)) (haddr : (d.pte (a / PGSIZE)).addr = (d.pte (b / PGSIZE)).addr)
    (hoff : a % PGSIZE = b % PGSIZE)
    : a = b := by
  have hpage := PgDir.addr_inj hnodup (ha.lt hd) (hb.lt hd) ha.1 hb.1 haddr
  rw [← Nat.div_add_mod a PGSIZE, hpage, hoff, Nat.div_add_mod]

theorem Copied.append (hd : d.Wf) (hnodup : d.frames.Nodup) (h : Copied d va bs m m1)
    (h' : Copied d (va + bs.length) cs m1 m')
    (huser : ∀ i < bs.length + cs.length, d.UserPage ((va + i) / PGSIZE))
    : Copied d va (bs ++ cs) m m' where
  byte i hi := by
    rw [List.length_append] at hi
    by_cases hlt : i < bs.length
    . rw [List.getElem_append_left hlt, ← h.byte i hlt]
      apply h'.other
      intro j hj haddr hoff
      have := PgDir.place_inj hd hnodup (by rw [Nat.add_assoc]; exact huser _ (by omega)) (huser i (by omega)) haddr hoff
      omega
    . rw [List.getElem_append_right (by omega), ← h'.byte (i - bs.length) (by omega)]
      congr 1
      omega
  other p o hout := by
    rw [List.length_append] at hout
    rw [h'.other p o, h.other p o]
    . intro i hi
      exact hout i (by omega)
    . intro i hi
      rw [Nat.add_assoc]
      exact hout (bs.length + i) (by omega)
  free := by rw [h'.free, h.free]

theorem write_copied {off : Nat} (hoff : off + bs.length ≤ PGSIZE)
    : Copied d (v * PGSIZE + off) bs m (m.write (d.pte v).addr off bs) where
  byte i h := by
    have hdiv : (v * PGSIZE + off + i) / PGSIZE = v := by
      unfold PGSIZE at *
      omega
    have hmod : (v * PGSIZE + off + i) % PGSIZE = off + i := by
      unfold PGSIZE at *
      omega
    unfold PgDir.byte Mem.write
    rw [hdiv, hmod, Mem.put_data, if_pos rfl, if_pos (by omega), Nat.add_sub_cancel_left,
      List.getD_eq_getElem?_getD, List.getElem?_eq_getElem h, Option.getD_some]
  other p o hout := by
    unfold Mem.write
    rw [Mem.put_data]
    split
    . next hp =>
      dsimp only
      split
      . next hle =>
        rw [List.getD_eq_getElem?_getD, List.getElem?_eq_none, Option.getD_none, hp]
        by_contra hlt
        have hdiv : (v * PGSIZE + off + (o - off)) / PGSIZE = v := by
          unfold PGSIZE at *
          omega
        have hmod : (v * PGSIZE + off + (o - off)) % PGSIZE = o := by
          unfold PGSIZE at *
          omega
        apply hout (o - off) (by omega) (by rw [hdiv, hp]) hmod
      . rw [hp]
    . rfl
  free := rfl

theorem Copied.userOnly (h : Copied d va bs m m') (huser : ∀ i < bs.length, d.UserPage ((va + i) / PGSIZE))
    : UserOnly d m m' where
  data p hp := by
    funext o
    apply h.other
    intro i hi haddr
    exact absurd haddr (hp _ (huser i hi))
  free := h.free

theorem UserOnly.trans (h : UserOnly d m m1) (h' : UserOnly d m1 m') : UserOnly d m m' where
  data p hp := by rw [h'.data p hp, h.data p hp]
  free := by rw [h'.free, h.free]

/--
`copyout` gets through, or it comes to the first page that is not the user's. There it is refused if that page has a page
table.
-/
inductive CopyoutCase (d : PgDir) (va : Nat) (buf : List UInt8) (m : Mem) : Res (Bool × Mem) → Prop where
  | done (m' : Mem) (huser : ∀ i < buf.length, d.UserPage ((va + i) / PGSIZE)) (h : Copied d va buf m m')
      : CopyoutCase d va buf m (.ok (true, m'))
  | refused (i : Nat) (m' : Mem) (hi : i < buf.length) (huser : ∀ j < i, d.UserPage ((va + j) / PGSIZE))
      (hnot : ¬ d.UserPage ((va + i) / PGSIZE)) (htab : (d.tab ((va + i) / PGSIZE / NPTENTRIES)).isSome)
      (h : UserOnly d m m')
      : CopyoutCase d va buf m (.ok (false, m'))
  | crash (i : Nat) (hi : i < buf.length) (huser : ∀ j < i, d.UserPage ((va + j) / PGSIZE))
      (htab : d.tab ((va + i) / PGSIZE / NPTENTRIES) = none)
      : CopyoutCase d va buf m (.error .undef)

theorem CopyoutCase.append {r : Res (Bool × Mem)} (hd : d.Wf) (hnodup : d.frames.Nodup) (h : Copied d va bs m m1)
    (huser : ∀ i < bs.length, d.UserPage ((va + i) / PGSIZE)) (hrest : CopyoutCase d (va + bs.length) cs m1 r)
    : CopyoutCase d va (bs ++ cs) m r := by
  have hboth : ∀ {k}, (∀ j < k, d.UserPage ((va + bs.length + j) / PGSIZE)) →
      ∀ j < bs.length + k, d.UserPage ((va + j) / PGSIZE) := by
    intro k hk j hj
    by_cases hlt : j < bs.length
    . exact huser j hlt
    . have := hk (j - bs.length) (by omega)
      rwa [show va + bs.length + (j - bs.length) = va + j by omega] at this
  cases hrest with
  | done m' huser' h' =>
    refine .done m' ?_ (h.append hd hnodup h' (hboth huser'))
    rw [List.length_append]
    exact hboth huser'
  | refused i m' hi huser' hnot htab h' =>
    rw [Nat.add_assoc] at hnot htab
    refine .refused (bs.length + i) m' ?_ (hboth huser') hnot htab ((h.userOnly huser).trans h')
    rw [List.length_append]
    omega
  | crash i hi huser' htab =>
    rw [Nat.add_assoc] at htab
    refine .crash (bs.length + i) ?_ (hboth huser') htab
    rw [List.length_append]
    omega

theorem uva2ka_eq (d : PgDir) (v : Nat) (m : Mem)
    : uva2ka d (v * PGSIZE) m
        =
      if (d.tab (v / NPTENTRIES)).isSome then
        if d.UserPage v then .ok (some (d.pte v).addr) else .ok none
      else
        .error .undef := by
  unfold uva2ka
  rw [walkpgdir_false_eq, mul_pgsize_div]
  cases htab : d.tab (v / NPTENTRIES) with
  | none => rfl
  | some p =>
    by_cases huser : d.UserPage v
    . simp only [Option.isSome_some, if_true, ite_not, if_pos huser, huser.1, huser.2]
    . simp only [Option.isSome_some, if_true, ite_not, if_neg huser]
      split
      . next hpresent => exact if_neg (fun h => huser ⟨hpresent, h⟩)
      . rfl

theorem copyoutLoop_nil (d : PgDir) (fuel va : Nat) (m : Mem) : copyoutLoop d fuel va [] m = .ok (true, m) := by
  cases fuel <;> rfl

theorem copyoutLoop_cases {fuel : Nat} (hd : d.Wf) (hnodup : d.frames.Nodup) (hfuel : buf.length ≤ fuel)
    : CopyoutCase d va buf m (copyoutLoop d fuel va buf m) := by
  induction fuel generalizing va buf m with
  | zero =>
    have hnil : buf = [] := List.length_eq_zero_iff.mp (by omega)
    subst hnil
    exact .done m (by simp) (.nil d va m)
  | succ fuel ih =>
    unfold copyoutLoop
    split
    . next hpos =>
      have hlow : va - va / PGSIZE * PGSIZE = va % PGSIZE := by
        unfold PGSIZE
        omega
      have hva : va = va / PGSIZE * PGSIZE + va % PGSIZE := by
        unfold PGSIZE
        omega
      have hoff : va % PGSIZE < PGSIZE := Nat.mod_lt va (by decide)
      unfold pgrounddown
      dsimp only
      rw [uva2ka_eq, hlow]
      by_cases htab : (d.tab (va / PGSIZE / NPTENTRIES)).isSome
      . by_cases huser : d.UserPage (va / PGSIZE)
        . rw [if_pos htab, if_pos huser]
          dsimp only
          have hfit := Nat.min_le_left (PGSIZE - va % PGSIZE) buf.length
          have hshort := Nat.min_le_right (PGSIZE - va % PGSIZE) buf.length
          have hsplit := List.take_append_drop (min (PGSIZE - va % PGSIZE) buf.length) buf
          have hn : min (PGSIZE - va % PGSIZE) buf.length = buf.length ∨
              min (PGSIZE - va % PGSIZE) buf.length = PGSIZE - va % PGSIZE ∧ PGSIZE - va % PGSIZE < buf.length := by
            omega
          generalize min (PGSIZE - va % PGSIZE) buf.length = n at hfit hshort hsplit hn ⊢
          have hlen : (buf.take n).length = n := by rw [List.length_take, Nat.min_eq_left hshort]
          have hcopy : Copied d (va / PGSIZE * PGSIZE + va % PGSIZE) (buf.take n) m
              (m.write (d.pte (va / PGSIZE)).addr (va % PGSIZE) (buf.take n)) :=
            write_copied (by omega)
          rw [← hva] at hcopy
          have huser' : ∀ i < (buf.take n).length, d.UserPage ((va + i) / PGSIZE) := by
            intro i hi
            rwa [show (va + i) / PGSIZE = va / PGSIZE by unfold PGSIZE at *; omega]
          conv => arg 3; rw [← hsplit]
          apply CopyoutCase.append hd hnodup hcopy huser'
          obtain hn | ⟨hn, hmore⟩ := hn
          . rw [List.drop_eq_nil_of_le (by omega), copyoutLoop_nil]
            exact .done _ (by simp) (.nil d _ _)
          . have hnext : va + (buf.take n).length = va / PGSIZE * PGSIZE + PGSIZE := by omega
            -- the kernel is above the pages of the user, so the address does not wrap around
            have hlt := huser.lt hd
            rw [hnext, uint_eq_self (by unfold UPAGES KERNBASE PGSIZE at *; omega)]
            apply ih
            rw [List.length_drop]
            omega
        . rw [if_pos htab, if_neg huser]
          exact .refused 0 m hpos (by simp) huser htab ⟨fun _ _ => rfl, rfl⟩
      . rw [if_neg htab]
        exact .crash 0 hpos (by simp) (Option.not_isSome_iff_eq_none.mp htab)
    . next hpos =>
      have hnil : buf = [] := List.length_eq_zero_iff.mp (by omega)
      subst hnil
      exact .done m (by simp) (.nil d va m)

theorem copyout_cases (va : Nat) (buf : List UInt8) (m : Mem) (hd : d.Wf) (hnodup : d.frames.Nodup)
    : CopyoutCase d va buf m (copyout d va buf m) :=
  copyoutLoop_cases hd hnodup (Nat.le_refl buf.length)

theorem copyout_eq_ok (va : Nat) (buf : List UInt8) (m : Mem) (hd : d.Wf) (hnodup : d.frames.Nodup)
    (huser : ∀ i < buf.length, d.UserPage ((va + i) / PGSIZE))
    : ∃ m', copyout d va buf m = .ok (true, m') ∧ Copied d va buf m m' := by
  have hcases := copyout_cases va buf m hd hnodup
  generalize copyout d va buf m = r at hcases ⊢
  cases hcases with
  | done m' huser h => exact ⟨m', rfl, h⟩
  | refused i m' hi _ hnot htab h => exact absurd (huser i hi) hnot
  | crash i hi _ htab =>
    have := hd.isSome_tab (huser i hi).1
    rw [htab] at this
    cases this

/-!
What `copyout` is for.
-/

/--
The return value is 0 exactly when the user may access all of the pages. Then the bytes are in place, and otherwise no
page but the user's has changed.
-/
def CopyoutOk (d : PgDir) (va : Nat) (buf : List UInt8) (m : Mem) : Res (Bool × Mem) → Prop
  | .error _ => False
  | .ok (ok, m') =>
    (ok = true ↔ ∀ i < buf.length, d.UserPage ((va + i) / PGSIZE)) ∧
      (ok = true → Copied d va buf m m') ∧ (ok = false → UserOnly d m m')

-- The first page that is not the user's has a page table.
def Reaches (d : PgDir) (va : Nat) (buf : List UInt8) : Prop :=
  ∀ i < buf.length, (∀ j < i, d.UserPage ((va + j) / PGSIZE)) → (d.tab ((va + i) / PGSIZE / NPTENTRIES)).isSome

theorem copyout_exact_iff (va : Nat) (buf : List UInt8) (m : Mem) (hd : d.Wf) (hnodup : d.frames.Nodup)
    : CopyoutOk d va buf m (copyout d va buf m) ↔ Reaches d va buf := by
  have hcases := copyout_cases va buf m hd hnodup
  generalize copyout d va buf m = r at hcases ⊢
  cases hcases with
  | done m' huser h =>
    refine iff_of_true ⟨iff_of_true rfl huser, fun _ => h, nofun⟩ ?_
    intro i hi _
    exact hd.isSome_tab (huser i hi).1
  | refused i m' hi huser hnot htab h =>
    refine iff_of_true ⟨iff_of_false nofun fun hall => hnot (hall i hi), nofun, fun _ => h⟩ ?_
    intro k _ hk
    obtain hlt | rfl | hlt := Nat.lt_trichotomy k i
    . exact hd.isSome_tab (huser k hlt).1
    . exact htab
    . exact absurd (hk i hlt) hnot
  | crash i hi huser htab =>
    refine iff_of_false not_false fun hreach => ?_
    have := hreach i hi huser
    rw [htab] at this
    cases this

theorem copyout_exact_iff_boot
    : ∃ d kstack m, userinit Layout.small [] Mem.small = .ok (bootState d kstack m) ∧
        (CopyoutOk d 4090 [1, 2, 3, 4, 5, 6, 7] m (copyout d 4090 [1, 2, 3, 4, 5, 6, 7] m) ↔
          Reaches d 4090 [1, 2, 3, 4, 5, 6, 7]) := by
  obtain ⟨d, kstack, m, hboot, -⟩ := Mem.small_boot
  have hinv := (userinit_inv Mem.small_sound hboot).1
  have hsound := hinv.sound_pgdir (p := 0) rfl
  exact ⟨d, kstack, m, hboot,
    copyout_exact_iff 4090 _ m (hinv.wf 0 _ rfl) (Multiset.nodup_add.mp hsound.nodup).1⟩

-- The first process has no page table for the addresses around 8 MB.
theorem copyout_without_table
    : ∃ d kstack m, userinit Layout.small [] Mem.small = .ok (bootState d kstack m) ∧
        copyout d 0x800000 [1] m = .error .undef ∧
        ¬ CopyoutOk d 0x800000 [1] m (copyout d 0x800000 [1] m) := by
  obtain ⟨d, kstack, m, hboot, hb, -⟩ := Mem.small_boot
  have htab : d.tab 2 = none := by
    rw [← Option.not_isSome_iff_eq_none, hb.tabs]
    decide
  have hcrash : copyout d 0x800000 [1] m = .error .undef := by
    unfold copyout
    rw [List.length_singleton]
    unfold copyoutLoop
    rw [if_pos (by decide)]
    dsimp only
    rw [show pgrounddown 0x800000 = 2048 * PGSIZE by decide, uva2ka_eq, show 2048 / NPTENTRIES = 2 by decide, htab]
    rfl
  refine ⟨d, kstack, m, hboot, hcrash, ?_⟩
  rw [hcrash]
  exact not_false

end

end Xv6.Vm
