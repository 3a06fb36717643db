import Xv6.Vm.Argv
import Xv6.Vm.Flat
import Xv6.Vm.Impl.Execve

/-!
`exec` as a whole. Whatever the file holds, the program is loaded into pages of the new address space only. A failure
leaves nothing behind, unless an argument is so long that its place on the stack wraps around to addresses without a page
table.
-/

namespace Xv6.Vm

-- An address space of the size `sz` before `clearpteu`.
structure Loaded (d : PgDir) (sz : Nat) : Prop where
  built : Built d (npages sz)
  user : ∀ v < npages sz, (d.pte v).user = true
  lt : sz < KERNBASE

-- Only pages of the user below `sz` have changed.
structure UserBelow (d : PgDir) (sz : Nat) (m m' : Mem) : Prop where
  data : ∀ p, (∀ v, v * PGSIZE < sz → d.UserPage v → (d.pte v).addr ≠ p) → m'.data p = m.data p
  free : m'.free = m.free

/--
The calls of `loaduvm` that the loop over `n` headers makes: with the header `ph`, when the new address space is `d'`, of
the size `sz'`, and the memory `m'`.
-/
inductive Loading (L : Layout) (ip : Inode)
    : Nat → Nat → PgDir → Nat → Mem → Proghdr → PgDir → Nat → Mem → Prop where
  | call {n off sz sz' : Nat} {d d' : PgDir} {m m' : Mem} {ph : Proghdr} (hph : readProghdr ip off = some ph)
      (htype : ph.type = ELF_PROG_LOAD) (hfilesz : ¬ ph.memsz < ph.filesz)
      (hwrap : ¬ uint (ph.vaddr + ph.memsz) < ph.vaddr)
      (halloc : allocuvm L d sz (uint (ph.vaddr + ph.memsz)) m = .ok (sz', d', m')) (hne : sz' ≠ 0)
      (haligned : ph.vaddr % PGSIZE = 0)
      : Loading L ip (n + 1) off d sz m ph d' sz' m'
  | next {n off sz sz' sz1 : Nat} {d d' d1 : PgDir} {m m' m1 : Mem} {ph ph' : Proghdr}
      (hph : readProghdr ip off = some ph) (hseg : loadSegment L ip ph d sz m = .ok (true, sz1, d1, m1))
      (h : Loading L ip n (uint (off + 32)) d1 sz1 m1 ph' d' sz' m')
      : Loading L ip (n + 1) off d sz m ph' d' sz' m'

section

variable {L : Layout} {d d' : PgDir} {m m1 m' : Mem} {sz v w off n : Nat} {ip : Inode} {ph : Proghdr}

namespace UserBelow

theorem refl (d : PgDir) (sz : Nat) (m : Mem) : UserBelow d sz m m :=
  ⟨fun _ _ => rfl, rfl⟩

theorem trans (h : UserBelow d sz m m1) (h' : UserBelow d sz m1 m') : UserBelow d sz m m' where
  data p hp := by rw [h'.data p hp, h.data p hp]
  free := by rw [h'.free, h.free]

theorem write (hv : v * PGSIZE < sz) (huser : d.UserPage v) (m : Mem) (off : Nat) (bs : List UInt8)
    : UserBelow d sz m (m.write (d.pte v).addr off bs) where
  data p hp := by
    have hne := hp v hv huser
    unfold Mem.write
    rw [Mem.put_data, if_neg hne.symm]
  free := Mem.write_free m _ off bs

theorem xfer (h : UserBelow d sz m m') (hsz : sz ≤ KERNBASE) : m.Xfer d.frames m' d.frames where
  total := by rw [h.free]
  data p hp := by
    apply h.data
    rintro v hv huser rfl
    have hu : v < UPAGES := Nat.lt_of_lt_of_le (lt_npages.mpr hv) (npages_le_upages hsz)
    exact hp (Multiset.mem_add.mpr (.inl (PgDir.addr_mem_frames hu huser.1)))

end UserBelow

namespace Loaded

theorem full (h : Loaded d sz) : Full d sz :=
  h.built.pages

theorem userPage (h : Loaded d sz) (hv : v < npages sz) : d.UserPage v :=
  ⟨(h.built.pages v (Nat.lt_of_lt_of_le hv (npages_le_upages (Nat.le_of_lt h.lt)))).mpr hv, h.user v hv⟩

end Loaded

-- `loaduvm` gets to the end of a segment that lies below `sz`, or to where the file ends.
theorem loadLoop_eq_ok {k fuel size : Nat} (ip : Inode) (offset : Nat) (m : Mem) (h : Loaded d sz) (hsize : v * PGSIZE + size ≤ sz)
    (hfuel : npages size ≤ k + fuel)
    : ∃ ok m', loadLoop d (v * PGSIZE) ip offset size fuel (k * PGSIZE) m = .ok (ok, m') ∧ UserBelow d sz m m' := by
  have hsz := h.lt
  induction fuel generalizing k m with
  | zero =>
    unfold loadLoop
    rw [if_neg (by rw [← lt_npages]; omega)]
    exact ⟨true, m, rfl, .refl d sz m⟩
  | succ fuel ih =>
    unfold loadLoop
    split
    . next hlt =>
      have haddr : uint (v * PGSIZE + k * PGSIZE) = (v + k) * PGSIZE := by
        unfold KERNBASE at hsz
        rw [uint_eq_self (by omega), Nat.add_mul]
      have hnext : uint (k * PGSIZE + PGSIZE) = (k + 1) * PGSIZE := by
        apply uint_next (n := 0)
        unfold KERNBASE at hsz
        unfold NPAGES NPDENTRIES NPTENTRIES
        unfold PGSIZE at hsize hlt
        omega
      have hvk : (v + k) * PGSIZE < sz := by
        rw [Nat.add_mul]
        omega
      have huser := h.userPage (lt_npages.mpr hvk)
      have htab := h.built.wf.isSome_tab huser.1
      rw [haddr, hnext, mul_pgsize_div, walkpgdir_false_eq, if_pos htab]
      dsimp only
      generalize (if size - k * PGSIZE < PGSIZE then size - k * PGSIZE else PGSIZE) = n
      have hwrite := UserBelow.write hvk huser m 0 (ip.readi (uint (offset + k * PGSIZE)) n)
      split
      . exact ⟨false, _, rfl, hwrite⟩
      . obtain ⟨ok, m', hload, hrest⟩ := ih (k := k + 1)
          (m.write (d.pte (v + k)).addr 0 (ip.readi (uint (offset + k * PGSIZE)) n)) (by omega)
        exact ⟨ok, m', hload, hwrite.trans hrest⟩
    . exact ⟨true, m, rfl, .refl d sz m⟩

theorem loaduvm_eq_ok {addr size : Nat} (ip : Inode) (offset : Nat) (m : Mem) (h : Loaded d sz) (haligned : addr % PGSIZE = 0)
    (hsize : addr + size ≤ sz)
    : ∃ ok m', loaduvm d addr ip offset size m = .ok (ok, m') ∧ UserBelow d sz m m' := by
  have heq : addr = addr / PGSIZE * PGSIZE := by
    unfold PGSIZE at *
    omega
  have hfuel : npages size ≤ 0 + NPAGES := by
    have hle : size ≤ KERNBASE := Nat.le_trans (Nat.le_trans (Nat.le_add_left size addr) hsize) (Nat.le_of_lt h.lt)
    have := npages_le_upages hle
    have : UPAGES ≤ NPAGES := by decide
    omega
  have hload := loadLoop_eq_ok ip offset m h (heq ▸ hsize) hfuel
  unfold loaduvm
  rw [if_neg (not_not_intro haligned), heq]
  rw [Nat.zero_mul] at hload
  exact hload

theorem Built.fills {Δ : Multiset Ppn} (h : Built d v) (hfills : Fills d m v w d' m' Δ) : Built d' w where
  wf := hfills.grows.wf
  pages u hu := by
    by_cases hmem : u ∈ Set.Ico v w
    . exact iff_of_true (hfills.present hmem) hmem.2
    . have hle := hfills.le
      rw [hfills.grows.pte u hmem, h.pages u hu]
      rw [Set.mem_Ico] at hmem
      omega
  tabs i := by
    constructor
    . intro hsome
      rcases hfills.grows.newtab i hsome with hold | ⟨u, hu, rfl⟩
      . exact ((h.tabs i).mp hold).imp_right fun hlt => Nat.lt_of_lt_of_le hlt (tabsFor_mono hfills.le)
      . right
        have := hu.2
        unfold tabsFor NPTENTRIES
        omega
    . intro hi
      by_cases hold : KernTab i ∨ i < tabsFor v
      . obtain ⟨p, hp⟩ := Option.isSome_iff_exists.mp ((h.tabs i).mpr hold)
        rw [hfills.grows.tab i p hp]
        rfl
      . rw [not_or] at hold
        have hlt := hi.resolve_left hold.1
        -- the last page for which the table is
        have hu : min (i * NPTENTRIES + NPTENTRIES - 1) (w - 1) ∈ Set.Ico v w := by
          have := hold.2
          rw [Set.mem_Ico]
          unfold tabsFor NPTENTRIES at *
          omega
        have hsome := hfills.grows.wf.isSome_tab (hfills.present hu)
        rwa [show min (i * NPTENTRIES + NPTENTRIES - 1) (w - 1) / NPTENTRIES = i by
          unfold tabsFor NPTENTRIES at *
          omega] at hsome

/--
In a loaded address space `allocuvm` does not meet a page that is there already, and if it returns a size, then the
address space is loaded up to it.
-/
theorem allocuvm_loaded (h : Loaded d sz) (hs : m.Sound (Valid L) d.frames) (newsz : Nat)
    : ∃ r d' m', allocuvm L d sz newsz m = .ok (r, d', m') ∧ (r ≠ 0 → Loaded d' r ∧ newsz ≤ r) := by
  have hsz := h.lt
  by_cases hhigh : newsz ≥ KERNBASE
  . exact ⟨0, d, m, by rw [allocuvm, if_pos hhigh], fun hne => absurd rfl hne⟩
  . by_cases hlt : newsz < sz
    . exact ⟨sz, d, m, by rw [allocuvm, if_neg hhigh, if_pos hlt], fun _ => ⟨h, Nat.le_of_lt hlt⟩⟩
    . have hcases := allocuvm_cases h.built.wf hs (Nat.not_lt.mp hlt) (Nat.not_le.mp hhigh)
      have hup := npages_le_upages (Nat.le_of_lt (Nat.not_le.mp hhigh))
      generalize allocuvm L d sz newsz m = r at hcases
      cases hcases with
      | done d' m' Δ hfills =>
        refine ⟨newsz, d', m', rfl, fun _ => ⟨⟨h.built.fills hfills, ?_, Nat.not_le.mp hhigh⟩, Nat.le_refl newsz⟩⟩
        intro v hv
        by_cases hmem : v ∈ Set.Ico (npages sz) (npages newsz)
        . obtain ⟨p, hpte, -⟩ := hfills.fresh v hmem
          rw [hpte]
        . rw [hfills.grows.pte v hmem]
          rw [Set.mem_Ico] at hmem
          exact h.user v (by omega)
      | failed w d1 m1 m2 Δ Δ' _ _ _ _ => exact ⟨0, _, m2, rfl, fun hne => absurd rfl hne⟩
      | remap w d1 m1 Δ hfills hw hpresent _ =>
        have hle := hfills.le
        rw [h.built.pages w (by omega)] at hpresent
        omega

theorem Loaded.segment {sz' : Nat} (ip : Inode) (m1 : Mem) (h : Loaded d' sz') (hvaddr : ph.vaddr < 2 ^ 32) (hmemsz : ph.memsz < 2 ^ 32)
    (hfilesz : ¬ ph.memsz < ph.filesz) (hwrap : ¬ uint (ph.vaddr + ph.memsz) < ph.vaddr)
    (hle : uint (ph.vaddr + ph.memsz) ≤ sz') (haligned : ph.vaddr % PGSIZE = 0)
    : ∃ ok m2, loaduvm d' ph.vaddr ip ph.off ph.filesz m1 = .ok (ok, m2) ∧ UserBelow d' sz' m1 m2 := by
  apply loaduvm_eq_ok ip ph.off m1 h haligned
  -- the sum does not wrap around
  unfold uint at hwrap hle
  omega

theorem loadSegment_eq_ok (ip : Inode) (h : Loaded d sz) (hs : m.Sound (Valid L) d.frames) (hvaddr : ph.vaddr < 2 ^ 32)
    (hmemsz : ph.memsz < 2 ^ 32)
    : ∃ ok sz' d' m', loadSegment L ip ph d sz m = .ok (ok, sz', d', m') ∧ (ok = true → Loaded d' sz') := by
  unfold loadSegment
  split
  . exact ⟨true, sz, d, m, rfl, fun _ => h⟩
  . split
    . exact ⟨false, sz, d, m, rfl, nofun⟩
    . next hfilesz =>
      split
      . exact ⟨false, sz, d, m, rfl, nofun⟩
      . next hwrap =>
        obtain ⟨r, d1, m1, halloc, hr⟩ := allocuvm_loaded h hs (uint (ph.vaddr + ph.memsz))
        rw [halloc]
        dsimp only
        split
        . exact ⟨false, r, d1, m1, rfl, nofun⟩
        . next hne =>
          split
          . exact ⟨false, r, d1, m1, rfl, nofun⟩
          . next haligned =>
            obtain ⟨hloaded, hle⟩ := hr hne
            obtain ⟨ok, m2, hload, -⟩ := hloaded.segment ip m1 hvaddr hmemsz hfilesz hwrap hle
              (not_not.mp haligned)
            rw [hload]
            exact ⟨ok, r, d1, m2, rfl, fun _ => hloaded⟩

theorem loadSegments_eq_ok (ip : Inode) (n off : Nat) (h : Loaded d sz) (hs : m.Sound (Valid L) d.frames)
    : ∃ ok sz' d' m', loadSegments L ip n off d sz m = .ok (ok, sz', d', m') ∧ (ok = true → Loaded d' sz') := by
  induction n generalizing off d sz m with
  | zero => exact ⟨true, sz, d, m, rfl, fun _ => h⟩
  | succ n ih =>
    unfold loadSegments
    cases hph : readProghdr ip off with
    | none => exact ⟨false, sz, d, m, rfl, fun hok => absurd hok Bool.false_ne_true⟩
    | some ph =>
      obtain ⟨hvaddr, hmemsz⟩ := readProghdr_lt hph
      obtain ⟨ok, sz1, d1, m1, hseg, hloaded⟩ := loadSegment_eq_ok ip h hs hvaddr hmemsz
      have htrades := (loadSegment_trades h.full h.built.wf h.lt hvaddr hmemsz hseg).1
      dsimp only
      rw [hseg]
      cases ok with
      | false => exact ⟨false, sz1, d1, m1, rfl, fun hok => absurd hok Bool.false_ne_true⟩
      | true => exact ih _ (hloaded rfl) (htrades.xfer.sound hs)

-- Every call of `loaduvm` returns and writes to pages of the user below the size only.
theorem Loading.userBelow {sz' : Nat} (hload : Loading L ip n off d sz m ph d' sz' m') (h : Loaded d sz)
    (hs : m.Sound (Valid L) d.frames)
    : ∃ ok m2, loaduvm d' ph.vaddr ip ph.off ph.filesz m' = .ok (ok, m2) ∧ UserBelow d' sz' m' m2 := by
  induction hload with
  | call hph htype hfilesz hwrap halloc hne haligned =>
    obtain ⟨hvaddr, hmemsz⟩ := readProghdr_lt hph
    obtain ⟨r, d1, m1, halloc', hr⟩ := allocuvm_loaded h hs _
    rw [halloc, Except.ok.injEq, Prod.mk.injEq, Prod.mk.injEq] at halloc'
    obtain ⟨rfl, rfl, rfl⟩ := halloc'
    obtain ⟨hloaded, hle⟩ := hr hne
    exact hloaded.segment _ _ hvaddr hmemsz hfilesz hwrap hle haligned
  | next hph hseg _ ih =>
    obtain ⟨hvaddr, hmemsz⟩ := readProghdr_lt hph
    have htrades := (loadSegment_trades h.full h.built.wf h.lt hvaddr hmemsz hseg).1
    obtain ⟨ok, sz2, d2, m2, hseg', hloaded⟩ := loadSegment_eq_ok _ h hs hvaddr hmemsz
    rw [hseg, Except.ok.injEq, Prod.mk.injEq, Prod.mk.injEq, Prod.mk.injEq] at hseg'
    obtain ⟨rfl, rfl, rfl, rfl⟩ := hseg'
    exact ih (hloaded rfl) (htrades.xfer.sound hs)

end

/-!
The arguments. An argument that does not fit into the stack page is refused at the guard page below it, or at the kernel's
pages when its place wraps around. Between these there are no page tables.
-/

-- The place of an argument on the stack, as `exec` computes it.
def argPlace (sp : Nat) (arg : List UInt8) : Nat :=
  uint (sp + 2 ^ 32 - (arg.length + 1)) / 4 * 4

-- No page table maps the address.
def Stray (a : Nat) : Prop :=
  KERNBASE + PHYSTOP ≤ a ∧ a < DEVSPACE

-- The first of the arguments that does not fit into the stack page, which starts at `lo`, goes astray.
def Strays (lo : Nat) : List (List UInt8) → Nat → Prop
  | [], _ => False
  | arg :: argv, sp =>
    Stray (argPlace sp arg) ∨ (lo ≤ argPlace sp arg ∧ argPlace sp arg < sp ∧ Strays lo argv (argPlace sp arg))

-- The address space while the arguments are copied.
structure Stacked (d : PgDir) (lo : Nat) : Prop where
  wf : d.Wf
  full : ∀ v, v * PGSIZE < lo + PGSIZE → (d.pte v).present = true
  tabs : ∀ i, 512 ≤ i → ((d.tab i).isSome ↔ KernTab i)
  stack : StackPage d lo
  page : d.UserPage (lo / PGSIZE)

section

variable {L : Layout} {d d' : PgDir} {m m1 m' : Mem} {sz lo sp a v argc entry : Nat} {arg bs : List UInt8}
  {argv : List (List UInt8)} {ustack : List Nat}

theorem copyout_of_tabs (a : Nat) (bs : List UInt8) (m : Mem) (hd : d.Wf) (hnodup : d.frames.Nodup)
    (htabs : ∀ i < bs.length, (d.tab ((a + i) / PGSIZE / NPTENTRIES)).isSome)
    : ∃ ok m', copyout d a bs m = .ok (ok, m') := by
  have hcases := copyout_cases a bs m hd hnodup
  generalize copyout d a bs m = r at hcases ⊢
  cases hcases with
  | done m' huser h => exact ⟨true, m', rfl⟩
  | refused i m' hi huser hnot htab h => exact ⟨false, m', rfl⟩
  | crash i hi huser htab =>
    have := htabs i hi
    rw [htab] at this
    cases this

theorem Stacked.isSome_tab (h : Stacked d lo) (ha : a < lo + PGSIZE) : (d.tab (a / PGSIZE / NPTENTRIES)).isSome := by
  apply h.wf.isSome_tab
  apply h.full
  exact Nat.lt_of_le_of_lt (Nat.div_mul_le_self a PGSIZE) ha

theorem Stacked.copyout_high (h : Stacked d lo) (hnodup : d.frames.Nodup) (hlow : KERNBASE ≤ a) (hhigh : a < 2 ^ 32) (hbs : 0 < bs.length)
    : (Stray a ∧ copyout d a bs m = .error .undef) ∨ (¬ Stray a ∧ ∃ m', copyout d a bs m = .ok (false, m')) := by
  have hnot : ¬ d.UserPage ((a + 0) / PGSIZE) := by
    intro huser
    have := huser.lt h.wf
    unfold UPAGES PGSIZE KERNBASE at *
    omega
  have htab := h.tabs ((a + 0) / PGSIZE / NPTENTRIES) (by
    unfold PGSIZE KERNBASE NPTENTRIES at *
    omega)
  have hstray : Stray a ↔ ¬ KernTab ((a + 0) / PGSIZE / NPTENTRIES) := by
    unfold Stray KernTab DEVSPACE PHYSTOP KERNBASE PGSIZE NPTENTRIES at *
    omega
  have hcases := copyout_cases a bs m h.wf hnodup
  generalize copyout d a bs m = r at hcases ⊢
  cases hcases with
  | done m' huser _ => exact absurd (huser 0 hbs) hnot
  | refused i m' hi huser _ hsome _ =>
    have hi : i = 0 := by
      by_contra hne
      exact hnot (huser 0 (by omega))
    subst hi
    refine .inr ⟨?_, m', rfl⟩
    rw [hstray, not_not]
    exact htab.mp hsome
  | crash i hi huser hnone =>
    have hi : i = 0 := by
      by_contra hne
      exact hnot (huser 0 (by omega))
    subst hi
    refine .inl ⟨?_, rfl⟩
    rw [hstray, ← htab, hnone]
    exact Bool.false_ne_true

theorem Stacked.copyout_low (h : Stacked d lo) (hnodup : d.frames.Nodup) (hlo : lo ≤ sp) (hhi : sp ≤ lo + PGSIZE)
    (hshort : arg.length + 1 ≤ sp)
    : (lo ≤ argPlace sp arg ∧ ∃ m', copyout d (argPlace sp arg) (arg ++ [0]) m = .ok (true, m')) ∨
        (argPlace sp arg < lo ∧ ∃ m', copyout d (argPlace sp arg) (arg ++ [0]) m = .ok (false, m')) := by
  have hhigh := h.stack.high
  have hlen : (arg ++ [0]).length = arg.length + 1 := by rw [List.length_append, List.length_singleton]
  have hplace : argPlace sp arg + (arg.length + 1) ≤ sp := by
    unfold argPlace uint KERNBASE PGSIZE at *
    omega
  by_cases hfit : lo ≤ argPlace sp arg
  . refine .inl ⟨hfit, copyout_page (argPlace sp arg) (arg ++ [0]) m h.wf hnodup h.stack.aligned h.page hfit ?_⟩
    rw [hlen]
    omega
  . obtain ⟨ok, m', hcopy⟩ := copyout_of_tabs (argPlace sp arg) (arg ++ [0]) m h.wf hnodup (by
      intro i hi
      rw [hlen] at hi
      exact h.isSome_tab (by omega))
    cases ok with
    | false => exact .inr ⟨Nat.not_le.mp hfit, m', hcopy⟩
    | true =>
      rw [argPlace, ← hlen] at hcopy
      obtain ⟨va, rfl, hva, -⟩ := push_copied h.wf hnodup h.stack hlo hhi (by rw [hlen]; omega) hcopy
      rw [hlen] at hva
      exact absurd hva hfit

theorem pushArgs_cases (argc : Nat) (ustack : List Nat) (m : Mem) (h : Stacked d lo) (hnodup : d.frames.Nodup) (hlo : lo ≤ sp) (hhi : sp ≤ lo + PGSIZE)
    (hargc : argc + argv.length ≤ MAXARG) (hlen : ∀ arg ∈ argv, arg.length + 1 ≤ KERNBASE)
    : (Strays lo argv sp ∧ pushArgs d argv argc sp ustack m = .error .undef) ∨
        (¬ Strays lo argv sp ∧ ∃ r m', pushArgs d argv argc sp ustack m = .ok (r, m') ∧
          ∀ x ∈ r, lo ≤ x.1 ∧ x.1 ≤ lo + PGSIZE ∧ x.2.length = ustack.length + argv.length) := by
  induction argv generalizing argc sp ustack m with
  | nil =>
    refine .inr ⟨not_false, _, m, rfl, ?_⟩
    intro x hx
    simp only [Option.mem_def, Option.some.injEq] at hx
    subst hx
    exact ⟨hlo, hhi, rfl⟩
  | cons arg argv ih =>
    have hhigh := h.stack.high
    have hlow := h.stack.low
    rw [List.length_cons] at hargc
    have hfirst := hlen arg List.mem_cons_self
    have hplace : uint (sp + 2 ^ 32 - (arg.length + 1)) / 4 * 4 = argPlace sp arg := rfl
    unfold pushArgs Strays
    rw [if_neg (by omega)]
    dsimp only
    rw [hplace]
    by_cases hshort : arg.length + 1 ≤ sp
    . have hdown : argPlace sp arg < sp := by
        unfold argPlace uint KERNBASE PGSIZE at *
        omega
      have hnot : ¬ Stray (argPlace sp arg) := by
        rintro ⟨hstray, -⟩
        unfold KERNBASE PHYSTOP PGSIZE at *
        omega
      rcases h.copyout_low (m := m) hnodup hlo hhi hshort with ⟨hfit, m1, hcopy⟩ | ⟨hout, m1, hcopy⟩
      . rw [hcopy]
        have hrest := ih (argc + 1) (ustack ++ [argPlace sp arg]) m1 hfit
          (by omega) (by omega) (fun arg' hmem => hlen arg' (List.mem_cons_of_mem arg hmem))
        rcases hrest with ⟨hstrays, hpush⟩ | ⟨hstrays, r, m', hpush, hr⟩
        . exact .inl ⟨.inr ⟨hfit, hdown, hstrays⟩, hpush⟩
        . refine .inr ⟨?_, r, m', hpush, ?_⟩
          . rintro (hstray | ⟨-, -, hbad⟩)
            . exact hnot hstray
            . exact hstrays hbad
          . intro x hx
            obtain ⟨hx1, hx2, hx3⟩ := hr x hx
            rw [List.length_append, List.length_singleton] at hx3
            rw [List.length_cons]
            exact ⟨hx1, hx2, by omega⟩
      . rw [hcopy]
        refine .inr ⟨?_, none, m1, rfl, fun x hx => by cases hx⟩
        rintro (hstray | ⟨hfit, -⟩)
        . exact hnot hstray
        . omega
    . have hup : KERNBASE ≤ argPlace sp arg ∧ argPlace sp arg < 2 ^ 32 := by
        unfold argPlace uint KERNBASE PGSIZE at *
        omega
      have hbs : 0 < (arg ++ [0]).length := by simp
      rcases h.copyout_high (m := m) hnodup hup.1 hup.2 hbs with ⟨hstray, hcopy⟩ | ⟨hstray, m1, hcopy⟩
      . rw [hcopy]
        exact .inl ⟨.inl hstray, rfl⟩
      . rw [hcopy]
        refine .inr ⟨?_, none, m1, rfl, fun x hx => by cases hx⟩
        rintro (hbad | ⟨-, hdown, -⟩)
        . exact hstray hbad
        . omega

theorem clearpteu_stacked (h : Loaded d ((v + 2) * PGSIZE))
    : ∃ d', clearpteu d (uint ((v + 2) * PGSIZE + 2 ^ 32 - 2 * PGSIZE)) m = .ok d' ∧ Stacked d' ((v + 1) * PGSIZE) := by
  have hlt := h.lt
  have hup := npages_le_upages (Nat.le_of_lt hlt)
  have haddr : uint ((v + 2) * PGSIZE + 2 ^ 32 - 2 * PGSIZE) = v * PGSIZE := by
    unfold uint KERNBASE PGSIZE at *
    omega
  have huser : ∀ w, w < v + 2 → d.UserPage w := by
    intro w hw
    apply h.userPage
    rw [lt_npages]
    exact Nat.mul_lt_mul_of_pos_right hw (by decide)
  have hclear : clearpteu d (v * PGSIZE) m = .ok (d.setPte v { d.pte v with user := false }) := by
    unfold clearpteu
    rw [walkpgdir_false_eq, if_pos (h.built.wf.isSome_tab (huser v (by omega)).1), mul_pgsize_div]
  have hwf := (clearpteu_trades (m := m) h.built.wf hclear).2.wf
  refine ⟨_, by rw [haddr]; exact hclear, ?_⟩
  constructor
  case wf => exact hwf
  case full =>
    intro w hw
    have hpresent := (huser w (by unfold PGSIZE at hw; omega)).1
    rw [PgDir.setPte_pte]
    split
    . next heq =>
      rw [heq] at hpresent
      exact hpresent
    . exact hpresent
  case tabs =>
    intro i hi
    have hnot : ¬ i < tabsFor (npages ((v + 2) * PGSIZE)) := by
      unfold tabsFor NPTENTRIES UPAGES KERNBASE PGSIZE at *
      omega
    rw [PgDir.setPte_tab, h.built.tabs]
    exact or_iff_left hnot
  case stack =>
    constructor
    case aligned => exact Nat.mul_mod_left (v + 1) PGSIZE
    case low => exact Nat.le_mul_of_pos_left PGSIZE (Nat.succ_pos v)
    case high =>
      unfold PGSIZE at *
      omega
    case guard =>
      rw [mul_pgsize_div, Nat.add_sub_cancel]
      rintro ⟨-, hbad⟩
      rw [PgDir.setPte_pte, if_pos rfl] at hbad
      cases hbad
  case page =>
    rw [mul_pgsize_div]
    unfold PgDir.UserPage
    rw [PgDir.setPte_pte, if_neg (Nat.succ_ne_self v)]
    exact huser (v + 1) (by omega)

theorem allocuvm_stack (h : Loaded d sz) (hs : m.Sound (Valid L) d.frames)
    : ∃ r d' m', allocuvm L d (pgroundup sz) (uint (pgroundup sz + 2 * PGSIZE)) m = .ok (r, d', m') ∧
        Trades d m d' m' ∧ (r ≠ 0 → r = (npages sz + 2) * PGSIZE ∧ Loaded d' r) := by
  have hle := npages_le_upages (Nat.le_of_lt h.lt)
  have hwrap : uint (npages sz * PGSIZE + 2 * PGSIZE) = (npages sz + 2) * PGSIZE := by
    rw [← Nat.add_mul]
    apply uint_eq_self
    unfold UPAGES KERNBASE PGSIZE at *
    omega
  have hpages : npages (npages sz * PGSIZE) = npages sz := by
    generalize npages sz = n
    unfold npages PGSIZE
    omega
  rw [pgroundup_eq_npages (Nat.le_of_lt h.lt), hwrap]
  by_cases hlow : npages sz * PGSIZE < KERNBASE
  . have hround : Loaded d (npages sz * PGSIZE) := ⟨by rw [hpages]; exact h.built, by rw [hpages]; exact h.user, hlow⟩
    obtain ⟨r, d', m', halloc, hr⟩ := allocuvm_loaded hround hs ((npages sz + 2) * PGSIZE)
    obtain ⟨htrades, hcases⟩ := allocuvm_trades h.built.wf halloc
    refine ⟨r, d', m', halloc, htrades, fun hne => ⟨?_, (hr hne).1⟩⟩
    rcases hcases with ⟨hzero, -⟩ | ⟨-, hlt, -⟩ | ⟨heq, -⟩
    . exact absurd hzero hne
    . have := Nat.mul_le_mul_right PGSIZE (Nat.le_add_right (npages sz) 2)
      omega
    . exact heq
  . have hhigh : (npages sz + 2) * PGSIZE ≥ KERNBASE := by
      rw [Nat.add_mul]
      omega
    refine ⟨0, d, m, by rw [allocuvm, if_pos hhigh], .refl h.built.wf m, fun hne => absurd rfl hne⟩

-- What `sys_exec` passes on from a process of the size `sz`.
structure Accepted (sz : Nat) (argv : List (List UInt8)) : Prop where
  count : argv.length < MAXARG
  inside : ∀ arg ∈ argv, arg.length + 1 ≤ sz

-- `exec` gets through with the stack unless there is room for it and an argument goes astray.
theorem setupStack_cases {tsz : Nat} (entry : Nat) (h : Loaded d sz) (hs : m.Sound (Valid L) d.frames) (htsz : tsz ≤ KERNBASE)
    (hargs : Accepted tsz argv)
    : ∃ r d1 m1, allocuvm L d (pgroundup sz) (uint (pgroundup sz + 2 * PGSIZE)) m = .ok (r, d1, m1) ∧
        ((r ≠ 0 ∧ Strays (r - PGSIZE) argv r ∧ setupStack L d sz entry argv m = .error .undef) ∨
          (¬ (r ≠ 0 ∧ Strays (r - PGSIZE) argv r) ∧
            ∃ image d' m', setupStack L d sz entry argv m = .ok (image, d', m'))) := by
  obtain ⟨r, d1, m1, halloc, htrades, hr⟩ := allocuvm_stack h hs
  refine ⟨r, d1, m1, halloc, ?_⟩
  unfold setupStack
  dsimp only
  rw [halloc]
  dsimp only
  by_cases hzero : r = 0
  . rw [if_pos hzero]
    exact .inr ⟨fun hbad => hbad.1 hzero, none, d1, m1, rfl⟩
  . obtain ⟨rfl, hloaded⟩ := hr hzero
    obtain ⟨d2, hclear, hst⟩ := clearpteu_stacked (m := m1) hloaded
    have hnodup2 := ((htrades.trans (clearpteu_trades hloaded.built.wf hclear).2).xfer.sound hs).nodup
    have hnodup : d2.frames.Nodup := (Multiset.nodup_add.mp hnodup2).1
    have hlo : (npages sz + 2) * PGSIZE - PGSIZE = (npages sz + 1) * PGSIZE := by
      unfold PGSIZE
      omega
    have hsum : (npages sz + 2) * PGSIZE = (npages sz + 1) * PGSIZE + PGSIZE := by
      unfold PGSIZE
      omega
    have hcount := hargs.count
    have hlen : ∀ arg ∈ argv, arg.length + 1 ≤ KERNBASE := fun arg hmem => Nat.le_trans (hargs.inside arg hmem) htsz
    rw [if_neg hzero, hclear, hlo]
    dsimp only
    have hpush := pushArgs_cases 0 [] m1 hst hnodup
      (show (npages sz + 1) * PGSIZE ≤ (npages sz + 2) * PGSIZE by omega) (by omega) (by omega) hlen
    rcases hpush with ⟨hstrays, hpush⟩ | ⟨hstrays, x, m2, hpush, hx⟩
    . rw [hpush]
      exact .inl ⟨hzero, hstrays, rfl⟩
    . rw [hpush]
      refine .inr ⟨fun hbad => hstrays hbad.2, ?_⟩
      cases x with
      | none => exact ⟨none, d2, m2, rfl⟩
      | some x =>
        obtain ⟨sp, args⟩ := x
        obtain ⟨hlow, hhigh, hargslen⟩ := hx _ rfl
        have hpage := hst.stack.low
        have htop := hst.stack.high
        dsimp only at hlow hhigh hargslen ⊢
        rw [List.length_nil, Nat.zero_add] at hargslen
        have hdown : uint (sp + 2 ^ 32 - (3 + args.length + 1) * 4) = sp - (3 + args.length + 1) * 4 := by
          unfold uint MAXARG KERNBASE PGSIZE at *
          omega
        obtain ⟨ok, m3, hcopy⟩ := copyout_of_tabs (uint (sp + 2 ^ 32 - (3 + args.length + 1) * 4))
          (([0xffffffff, args.length, uint (sp + 2 ^ 32 - (args.length + 1) * 4)] ++ args ++ [0]).flatMap bytes32) m2
          hst.wf hnodup (by
            intro i hi
            rw [length_flatMap_bytes32] at hi
            simp only [List.length_append, List.length_cons, List.length_nil] at hi
            rw [hdown]
            exact hst.isSome_tab (by unfold MAXARG PGSIZE at *; omega))
        rw [hcopy]
        cases ok with
        | false => exact ⟨none, d2, m3, rfl⟩
        | true => exact ⟨_, d2, m3, rfl⟩

end

/-!
The whole call.
-/

theorem Fs.iunlockput_endOp (fs : Fs) (inum : Nat) : (((fs.beginOp.iget inum).ilock inum).iunlockput inum).endOp = fs := by
  have href : Function.update (Function.update fs.ref inum (fs.ref inum + 1)) inum (fs.ref inum) = fs.ref := by
    rw [Function.update_idem, Function.update_eq_self]
  obtain ⟨outstanding, ref, locked⟩ := fs
  simp only [Fs.beginOp, Fs.iget, Fs.ilock, Fs.iunlockput, Fs.iunlock, Fs.iput, Fs.endOp, Function.update_self,
    Nat.add_sub_cancel, List.erase_cons_head] at href ⊢
  rw [href]

-- What `exec` does to the memory does not depend on the process and the file system.
theorem execve_mem (L : Layout) (path : List UInt8) (argv : List (List UInt8)) (inum : Nat) (ip : Option Inode) (t : Task)
    (fs : Fs) (m : Mem)
    : (execve L path argv (ip.map fun f => (inum, f)) t fs m).map Exit.mem = (exec L ip argv t.pgdir m).map Prod.snd := by
  cases ip with
  | none => rfl
  | some f =>
    unfold execve exec
    dsimp only [Option.map_some]
    cases readElfhdr f with
    | none => rfl
    | some elf =>
      dsimp only
      split
      . rfl
      . cases setupkvm L m with
        | error e => rfl
        | ok r =>
          obtain ⟨d | d, m0⟩ := r
          . rfl
          . dsimp only [loadImage]
            cases loadSegments L f elf.phnum elf.phoff d 0 m0 with
            | error e => rfl
            | ok r =>
              obtain ⟨ok, sz, d1, m1⟩ := r
              cases ok with
              | false =>
                dsimp only [bad]
                cases freevm L d1 m1 <;> rfl
              | true =>
                dsimp only [finish]
                cases setupStack L d1 sz elf.entry argv m1 with
                | error e => rfl
                | ok r =>
                  obtain ⟨image | image, d2, m2⟩ := r
                  . dsimp only [bad]
                    cases freevm L d2 m2 <;> rfl
                  . dsimp only
                    cases freevm L t.pgdir m2 <;> rfl

-- `exec` comes to the arguments, with the top of the stack at `sz`.
inductive PushesArgs (L : Layout) (m : Mem) : Option (Nat × Inode) → Nat → Prop where
  | mk {inum : Nat} {f : Inode} {elf : Elfhdr} {d0 d1 d2 : PgDir} {m0 m1 m2 : Mem} {sz r : Nat}
      (helf : readElfhdr f = some elf) (hmagic : elf.magic = ELF_MAGIC) (hkvm : setupkvm L m = .ok (some d0, m0))
      (hload : loadSegments L f elf.phnum elf.phoff d0 0 m0 = .ok (true, sz, d1, m1))
      (halloc : allocuvm L d1 (pgroundup sz) (uint (pgroundup sz + 2 * PGSIZE)) m1 = .ok (r, d2, m2)) (hne : r ≠ 0)
      : PushesArgs L m (some (inum, f)) r

-- An argument goes astray.
def Overlong (L : Layout) (argv : List (List UInt8)) (ip : Option (Nat × Inode)) (m : Mem) : Prop :=
  ∃ sz, PushesArgs L m ip sz ∧ Strays (sz - PGSIZE) argv sz

-- The same pages are free, and all others are unchanged.
def Undone (m m' : Mem) : Prop :=
  m'.free.Perm m.free ∧ ∀ p, p ∉ m.free → m'.data p = m.data p

/--
The call returns with the references and the transaction as they were and, on failure, with the process and the memory as
they were.
-/
def ExitsWell (m : Mem) (t : Task) (fs : Fs) (r : Res Exit) : Prop :=
  ∃ x, r = .ok x ∧ (x.ret = 0 ∨ x.ret = -1) ∧ x.fs = fs ∧ (x.ret = -1 → x.task = t ∧ Undone m x.mem)

/--
Every call of `loaduvm` returns and writes to pages of the new address space below its size, and so does the call as a
whole return.
-/
structure Robust (L : Layout) (path : List UInt8) (argv : List (List UInt8)) (ip : Option (Nat × Inode)) (t : Task) (fs : Fs)
    (m : Mem) : Prop where
  loads : ∀ inum f elf d0 m0 ph d sz m1, ip = some (inum, f) → readElfhdr f = some elf → setupkvm L m = .ok (some d0, m0) →
    Loading L f elf.phnum elf.phoff d0 0 m0 ph d sz m1 →
    ∃ ok m2, loaduvm d ph.vaddr f ph.off ph.filesz m1 = .ok (ok, m2) ∧ UserBelow d sz m1 m2
  returns : ExitsWell m t fs (execve L path argv ip t fs m)

section

variable {L : Layout} {d : PgDir} {m m1 : Mem} {sz entry inum : Nat} {path : List UInt8} {argv : List (List UInt8)}
  {ip : Option (Nat × Inode)} {t : Task} {fs : Fs} {f : Inode} {elf : Elfhdr}

theorem Undone.of_xfer {m' : Mem} (h : m.Xfer 0 m' 0) : Undone m m' := by
  constructor
  . have htotal := h.total
    rw [zero_add, zero_add] at htotal
    exact Multiset.coe_eq_coe.mp htotal
  . intro p hp
    apply h.data
    rw [zero_add]
    exact hp

theorem bad_eq_ok (ip : Option Nat) (t : Task) (fs : Fs) (hwf : d.Wf) (hx : m.Xfer 0 m1 d.frames) (hs : m.Sound (Valid L) 0)
    : ∃ x, bad L (some d) ip t fs m1 = .ok x ∧ x.ret = -1 ∧ x.task = t ∧ Undone m x.mem ∧
        x.fs = match ip with | none => fs | some inum => (fs.iunlockput inum).endOp := by
  have hs1 := hx.sound hs
  obtain ⟨m2, hfree, hx2⟩ := freevm_eq_ok (L := L) (m := m1) hwf fun p hp => hs1.valid p (Multiset.mem_add.mpr (.inl hp))
  refine ⟨{ ret := -1, task := t, fs := _, mem := m2 }, ?_, rfl, rfl, .of_xfer (hx.trans hx2), rfl⟩
  cases ip <;> simp only [bad, hfree]

theorem setupkvm_loaded (hs : m.Sound (Valid L) 0) (h : setupkvm L m = .ok (some d, m1))
    : Loaded d 0 ∧ m.Xfer 0 m1 d.frames := by
  have hfree : ∀ p ∈ m.free, Valid L p := fun p hp => hs.valid p (Multiset.mem_add.mpr (.inr hp))
  rcases setupkvm_cases hfree with ⟨-, d', m', heq, hwf, hx, htabs, hpages⟩ | ⟨-, m', heq, -⟩
  . rw [h, Except.ok.injEq, Prod.mk.injEq, Option.some.injEq] at heq
    obtain ⟨rfl, rfl⟩ := heq
    have hzero : npages 0 = 0 := by decide
    refine ⟨⟨?_, ?_, by decide⟩, hx⟩
    . rw [hzero]
      exact .zero hwf htabs hpages
    . rw [hzero]
      exact fun v hv => absurd hv (Nat.not_lt_zero v)
  . rw [h] at heq
    simp at heq

theorem setupkvm_eq_ok (hs : m.Sound (Valid L) 0)
    : ∃ r m', setupkvm L m = .ok (r, m') ∧ (r = none → m.Xfer 0 m' 0) := by
  have hfree : ∀ p ∈ m.free, Valid L p := fun p hp => hs.valid p (Multiset.mem_add.mpr (.inr hp))
  rcases setupkvm_cases hfree with ⟨-, d', m', heq, -⟩ | ⟨-, m', heq, hx⟩
  . exact ⟨some d', m', heq, nofun⟩
  . exact ⟨none, m', heq, fun _ => hx⟩

theorem bad_exitsWell (hwf : d.Wf) (hx : m.Xfer 0 m1 d.frames) (hs : m.Sound (Valid L) 0) (inum : Nat)
    : ExitsWell m t fs (bad L (some d) (some inum) t ((fs.beginOp.iget inum).ilock inum) m1) := by
  obtain ⟨x, hbad, hret, htask, hkept, hfs⟩ := bad_eq_ok (some inum) t ((fs.beginOp.iget inum).ilock inum)
    hwf hx hs
  exact ⟨x, hbad, .inr hret, hfs.trans (Fs.iunlockput_endOp fs inum), fun _ => ⟨htask, hkept⟩⟩

theorem bad_null_exitsWell (hx : m.Xfer 0 m1 0) (inum : Nat)
    : ExitsWell m t fs (bad L none (some inum) t ((fs.beginOp.iget inum).ilock inum) m1) :=
  ⟨_, rfl, .inr rfl, Fs.iunlockput_endOp fs inum, fun _ => ⟨rfl, .of_xfer hx⟩⟩

theorem finish_cases (path : List UInt8) (elf : Elfhdr) (fs : Fs) (h : Loaded d sz) (hx : m.Xfer 0 m1 d.frames) (hold : t.pgdir.Wf)
    (hs : m.Sound (Valid L) t.pgdir.frames) (htsz : t.sz ≤ KERNBASE) (hargs : Accepted t.sz argv)
    : ∃ r d1 m2, allocuvm L d (pgroundup sz) (uint (pgroundup sz + 2 * PGSIZE)) m1 = .ok (r, d1, m2) ∧
        ((r ≠ 0 ∧ Strays (r - PGSIZE) argv r ∧ finish L path argv elf d sz t fs m1 = .error .undef) ∨
          (¬ (r ≠ 0 ∧ Strays (r - PGSIZE) argv r) ∧ ExitsWell m t fs (finish L path argv elf d sz t fs m1))) := by
  have hs0 := hs.mono (Multiset.zero_le _)
  obtain ⟨r, d1, m2, halloc, hcases⟩ := setupStack_cases elf.entry h (hx.sound hs0) htsz hargs
  refine ⟨r, d1, m2, halloc, ?_⟩
  rcases hcases with ⟨hne, hstrays, hstack⟩ | ⟨hnot, image, d', m', hstack⟩
  . refine .inl ⟨hne, hstrays, ?_⟩
    unfold finish
    rw [hstack]
  . refine .inr ⟨hnot, ?_⟩
    obtain ⟨htrades, himage⟩ := setupStack_trades h.built.wf h.full h.lt hstack
    have hx' := hx.trans htrades.xfer
    unfold finish
    rw [hstack]
    cases image with
    | none =>
      obtain ⟨x, hbad, hret, htask, hkept, hfs⟩ := bad_eq_ok none t fs htrades.wf hx' hs0
      exact ⟨x, hbad, .inr hret, hfs, fun _ => ⟨htask, hkept⟩⟩
    | some image =>
      have hframe := hx'.frame t.pgdir.frames
      rw [zero_add] at hframe
      have hs' := hframe.sound hs
      obtain ⟨m3, hfree, -⟩ := freevm_eq_ok (L := L) (m := m') hold fun p hp =>
        hs'.valid p (Multiset.mem_add.mpr (.inl (Multiset.mem_add.mpr (.inr hp))))
      dsimp only
      rw [hfree]
      exact ⟨_, rfl, .inl rfl, rfl, fun hret => by simp at hret⟩

theorem execve_cases (path : List UInt8) (ip : Option (Nat × Inode)) (fs : Fs) (hold : t.pgdir.Wf) (hs : m.Sound (Valid L) t.pgdir.frames) (htsz : t.sz ≤ KERNBASE)
    (hargs : Accepted t.sz argv)
    : (Overlong L argv ip m ∧ execve L path argv ip t fs m = .error .undef) ∨
        (¬ Overlong L argv ip m ∧ ExitsWell m t fs (execve L path argv ip t fs m)) := by
  have hs0 := hs.mono (Multiset.zero_le _)
  unfold execve
  dsimp only
  cases ip with
  | none =>
    refine .inr ⟨?_, _, rfl, .inr rfl, rfl, fun _ => ⟨rfl, .of_xfer (.refl m 0)⟩⟩
    rintro ⟨sz, ⟨⟩, -⟩
  | some ip =>
    obtain ⟨inum, f⟩ := ip
    dsimp only
    cases helf : readElfhdr f with
    | none =>
      refine .inr ⟨?_, bad_null_exitsWell (.refl m 0) inum⟩
      rintro ⟨sz, ⟨helf', -⟩, -⟩
      rw [helf] at helf'
      cases helf'
    | some elf =>
      dsimp only
      split
      . next hmagic =>
        refine .inr ⟨?_, bad_null_exitsWell (.refl m 0) inum⟩
        rintro ⟨sz, ⟨helf', hmagic', -⟩, -⟩
        rw [helf, Option.some.injEq] at helf'
        exact hmagic (helf' ▸ hmagic')
      . next hmagic =>
        obtain ⟨r, m0, hkvm, hr⟩ := setupkvm_eq_ok (L := L) hs0
        rw [hkvm]
        cases r with
        | none =>
          refine .inr ⟨?_, bad_null_exitsWell (hr rfl) inum⟩
          rintro ⟨sz, ⟨-, -, hkvm', -⟩, -⟩
          rw [hkvm] at hkvm'
          simp at hkvm'
        | some d0 =>
          obtain ⟨hloaded, hx⟩ := setupkvm_loaded hs0 hkvm
          obtain ⟨ok, sz, d1, m1, hload, hok⟩ := loadSegments_eq_ok f elf.phnum elf.phoff hloaded
            (hx.sound hs0)
          have htrades := (loadSegments_trades hloaded.full hloaded.built.wf hloaded.lt hload).1
          have hx1 := hx.trans htrades.xfer
          dsimp only
          rw [hload]
          cases ok with
          | false =>
            refine .inr ⟨?_, bad_exitsWell htrades.wf hx1 hs0 inum⟩
            rintro ⟨sz', ⟨helf', -, hkvm', hload', -⟩, -⟩
            rw [helf, Option.some.injEq] at helf'
            rw [hkvm, Except.ok.injEq, Prod.mk.injEq, Option.some.injEq] at hkvm'
            obtain ⟨rfl, rfl⟩ := hkvm'
            rw [← helf', hload] at hload'
            simp at hload'
          | true =>
            have hfinish := finish_cases path elf fs (hok rfl) hx1 hold hs htsz hargs
            obtain ⟨r, d2, m2, halloc, hfinish⟩ := hfinish
            dsimp only
            rw [Fs.iunlockput_endOp]
            rcases hfinish with ⟨hne, hstrays, hstop⟩ | ⟨hnot, hreturns⟩
            . exact .inl ⟨⟨r, .mk helf (not_not.mp hmagic) hkvm hload halloc hne, hstrays⟩, hstop⟩
            . refine .inr ⟨?_, hreturns⟩
              rintro ⟨sz', ⟨helf', -, hkvm', hload', halloc', hne⟩, hstrays⟩
              rw [helf, Option.some.injEq] at helf'
              rw [hkvm, Except.ok.injEq, Prod.mk.injEq, Option.some.injEq] at hkvm'
              obtain ⟨rfl, rfl⟩ := hkvm'
              rw [← helf', hload, Except.ok.injEq, Prod.mk.injEq, Prod.mk.injEq, Prod.mk.injEq] at hload'
              obtain ⟨-, rfl, rfl, rfl⟩ := hload'
              rw [halloc, Except.ok.injEq, Prod.mk.injEq, Prod.mk.injEq] at halloc'
              obtain ⟨rfl, -, -⟩ := halloc'
              exact hnot ⟨hne, hstrays⟩

/--
`exec` is robust for every file and all arguments that `sys_exec` passes on, unless it comes to an argument that goes
astray.
-/
theorem execve_robust_iff (hold : t.pgdir.Wf) (hs : m.Sound (Valid L) t.pgdir.frames) (htsz : t.sz ≤ KERNBASE)
    (hargs : Accepted t.sz argv)
    : Robust L path argv ip t fs m ↔ ¬ Overlong L argv ip m := by
  have hs0 := hs.mono (Multiset.zero_le _)
  rcases execve_cases path ip fs hold hs htsz hargs with ⟨hover, hstop⟩ | ⟨hnot, hreturns⟩
  . refine iff_of_false ?_ (not_not_intro hover)
    rintro ⟨-, x, hok, -⟩
    rw [hstop] at hok
    cases hok
  . refine iff_of_true ⟨?_, hreturns⟩ hnot
    intro inum f elf d0 m0 ph d sz m1 _ _ hkvm hload
    obtain ⟨hloaded, hx⟩ := setupkvm_loaded hs0 hkvm
    exact hload.userBelow hloaded (hx.sound hs0)

end

-- The process that `userinit` makes or what has become of it.
def Proc.task (x : Proc) : Task where
  pgdir := x.pgdir
  sz := x.sz
  tf := { eip := 0, esp := PGSIZE, rest := fun _ => 0 }
  name := [105, 110, 105, 116, 99, 111, 100, 101, 0, 0, 0, 0, 0, 0, 0, 0]

theorem execve_robust_iff_boot
    : ∃ d kstack m, userinit Layout.small [] Mem.small = .ok (bootState d kstack m) ∧
        (Robust Layout.small [47, 101] [[101, 99, 104, 111], [104, 105]] (some (1, emptyElf))
            (Proc.task { sz := PGSIZE, pgdir := d, kstack := kstack, killed := false }) ⟨0, fun _ => 0, []⟩ m ↔
          ¬ Overlong Layout.small [[101, 99, 104, 111], [104, 105]] (some (1, emptyElf)) m) := by
  obtain ⟨d, kstack, m, hboot, -⟩ := Mem.small_boot
  have hinv := (userinit_inv Mem.small_sound hboot).1
  refine ⟨d, kstack, m, hboot, execve_robust_iff (hinv.wf 0 _ rfl) (hinv.sound_pgdir (p := 0) rfl)
    (show PGSIZE ≤ KERNBASE by decide) ⟨by decide, ?_⟩⟩
  intro arg harg
  have hlen : arg.length ≤ 4 := by
    simp only [List.mem_cons, List.not_mem_nil, or_false] at harg
    rcases harg with rfl | rfl <;> decide
  exact Nat.le_trans (Nat.succ_le_succ hlen) (show 5 ≤ PGSIZE by decide)

/-!
A machine with 20000 free pages, on which a process can have an argument of 48 MB.
-/

def Mem.large : Mem where
  free := List.range' 1024 20000
  data _ _ := 1

theorem Mem.large_sound : Mem.large.Sound (Valid Layout.small) 0 where
  nodup := by
    rw [zero_add]
    exact List.nodup_range'
  valid p hp := by
    rw [zero_add] at hp
    have := List.mem_range'_1.mp hp
    unfold Valid Layout.small PGSIZE PHYSTOP
    constructor
    . show 0x115000 ≤ Nat.mul p 4096
      rw [Nat.mul_eq]
      omega
    . show Nat.mul p 4096 < 0xE000000
      rw [Nat.mul_eq]
      omega

-- After `sbrk` of 48 MB there is still room for a new program.
theorem large_sbrk
    : ∃ d kstack m x m', userinit Layout.small [] Mem.large = .ok (bootState d kstack m) ∧
        growproc Layout.small 0x3000000 { sz := PGSIZE, pgdir := d, kstack := kstack, killed := false } m = .ok (true, x, m') ∧
        x.pgdir.Wf ∧ m'.Sound (Valid Layout.small) x.pgdir.frames ∧ x.sz = PGSIZE + 0x3000000 ∧ 68 ≤ m'.free.length := by
  have hfree : Mem.large.free.length = 20000 := List.length_range'
  obtain ⟨d, kstack, m, hboot, hb, -, hlen⟩ := userinit_eq_ok Mem.large_sound (by rw [hfree]; decide)
    (show ([] : List UInt8).length < PGSIZE by decide)
  rw [hfree] at hlen
  have hinv := (userinit_inv Mem.large_sound hboot).1
  have hs : m.Sound (Valid Layout.small) d.frames := hinv.sound_pgdir (p := 0) rfl
  have hcard : d.frames.card = 67 := hb.card (by decide)
  have hcost : spaceCost kernTabs 12289 = 12367 := by
    unfold spaceCost kernTabs
    rw [card_kernTabs]
    decide
  have hroomy : Roomy kernTabs 12289 { sz := PGSIZE, pgdir := d, kstack := kstack, killed := false } m := by
    refine ⟨hb.within.mono (by decide), ?_, ?_⟩
    . intro w hw hpresent
      have := (hb.pages w hw).mp hpresent
      have hone : npages PGSIZE = 1 := by decide
      dsimp only
      omega
    . dsimp only
      omega
  obtain ⟨x, m', hgrow, hroomy', hflat⟩ := growproc_grows (L := Layout.small) (k := 0x3000000) hroomy hs (by decide)
    (show PGSIZE + (0x3000000 : Word).toNat < KERNBASE by decide)
    (show npages (PGSIZE + (0x3000000 : Word).toNat) ≤ 12289 by decide)
  have htrades := (growproc_trades hroomy.within.wf hgrow).1
  refine ⟨d, kstack, m, x, m', hboot, hgrow, htrades.wf, htrades.xfer.sound hs, congrArg Flat.sz hflat, ?_⟩
  have htotal := htrades.xfer.card
  have hpages := hroomy'.within.pageCount_le
  have htabs := hroomy'.within.tabCount_le
  have hcard' := card_frames x.pgdir
  unfold spaceCost at hcost
  dsimp only at htotal
  omega

theorem pushesArgs_emptyElf {L : Layout} {m : Mem} {old : PgDir} (hold : old.Wf) (hs : m.Sound (Valid L) old.frames)
    (hlen : 68 ≤ m.free.length) (inum : Nat)
    : PushesArgs L m (some (inum, emptyElf)) (2 * PGSIZE) := by
  obtain ⟨image, m', hexec, hsz, -⟩ := exec_emptyElf [] hold hs hlen (by decide) (by decide)
  obtain ⟨f, elf, d0, d1, m0, m1, hip, helf, hkvm, himage, -⟩ := exec_eq_some hexec
  cases hip
  obtain ⟨sz, d2, m2, hload, hstack⟩ := loadImage_eq_some himage
  obtain ⟨d3, m3, -, -, -, halloc, hne, -⟩ := setupStack_eq_some hstack
  have hmagic : readElfhdr emptyElf = some { magic := ELF_MAGIC, entry := 0, phoff := 0, phnum := 0 } := rfl
  rw [hsz] at halloc hne
  refine .mk helf ?_ hkvm hload halloc hne
  rw [hmagic, Option.some.injEq] at helf
  rw [← helf]

theorem execve_stray {arg : List UInt8} (harg : arg.length = 0x3000000)
    : ∃ d kstack m x m', userinit Layout.small [] Mem.large = .ok (bootState d kstack m) ∧
        growproc Layout.small 0x3000000 { sz := PGSIZE, pgdir := d, kstack := kstack, killed := false } m = .ok (true, x, m') ∧
        Accepted x.sz [arg] ∧
        execve Layout.small [47, 101] [arg] (some (1, emptyElf)) x.task ⟨0, fun _ => 0, []⟩ m' = .error .undef ∧
        ¬ Robust Layout.small [47, 101] [arg] (some (1, emptyElf)) x.task ⟨0, fun _ => 0, []⟩ m' := by
  obtain ⟨d, kstack, m, x, m', hboot, hgrow, hwf, hs, hsz, hlen⟩ := large_sbrk
  have hplace : argPlace (2 * PGSIZE) arg = 0xFD001FFC := by
    unfold argPlace
    rw [harg]
    decide
  have hover : Overlong Layout.small [arg] (some (1, emptyElf)) m' := by
    refine ⟨2 * PGSIZE, pushesArgs_emptyElf hwf hs hlen 1, .inl ?_⟩
    rw [hplace]
    exact ⟨by decide, by decide⟩
  have hargs : Accepted x.sz [arg] := by
    refine ⟨show 1 < MAXARG by decide, ?_⟩
    intro arg' harg'
    rw [List.mem_singleton] at harg'
    rw [harg', hsz, harg]
    decide
  have htsz : x.task.sz ≤ KERNBASE := by
    show x.sz ≤ KERNBASE
    rw [hsz]
    decide
  rcases execve_cases [47, 101] (some (1, emptyElf)) ⟨0, fun _ => 0, []⟩ hwf hs htsz hargs with ⟨-, hstop⟩ | ⟨hnot, -⟩
  . refine ⟨d, kstack, m, x, m', hboot, hgrow, hargs, hstop, ?_⟩
    rintro ⟨-, y, hok, -⟩
    rw [hstop] at hok
    cases hok
  . exact absurd hover hnot

-- With an argument of 48 MB the call reads a page table that does not exist.
theorem execve_large_argument
    : ∃ d kstack m x m', userinit Layout.small [] Mem.large = .ok (bootState d kstack m) ∧
        growproc Layout.small 0x3000000 { sz := PGSIZE, pgdir := d, kstack := kstack, killed := false } m = .ok (true, x, m') ∧
        Accepted x.sz [List.replicate 0x3000000 97] ∧
        execve Layout.small [47, 101] [List.replicate 0x3000000 97] (some (1, emptyElf)) x.task ⟨0, fun _ => 0, []⟩ m' =
          .error .undef ∧
        ¬ Robust Layout.small [47, 101] [List.replicate 0x3000000 97] (some (1, emptyElf)) x.task ⟨0, fun _ => 0, []⟩ m' :=
  execve_stray List.length_replicate

end Xv6.Vm
