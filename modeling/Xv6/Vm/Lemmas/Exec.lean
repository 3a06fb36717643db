import Xv6.Vm.Impl.Exec
import Xv6.Vm.Lemmas.Setup

/-!
`exec`. It trades the old address space for the new one, and reads and writes only pages that it has
allocated itself.
-/

namespace Xv6.Vm

section

variable {L : Layout} {d d' : PgDir} {m m' : Mem}

theorem write_xfer_frames {v : Nat} (hv : v < UPAGES) (hpresent : (d.pte v).present = true) (off : Nat)
    (bs : List UInt8)
    : m.Xfer d.frames (m.write (d.pte v).addr off bs) d.frames :=
  (Mem.write_xfer m _ off bs).frame_mem (PgDir.addr_mem_frames hv hpresent)

theorem uva2ka_eq_some {uva : Nat} {p : Ppn} (hd : d.Wf) (h : uva2ka d uva m = .ok (some p))
    : uva / PGSIZE < UPAGES ∧ (d.pte (uva / PGSIZE)).present = true ∧ (d.pte (uva / PGSIZE)).addr = p := by
  unfold uva2ka at h
  split at h
  . simp at h
  . dsimp only at h
    split at h
    . simp at h
    . next hpresent =>
      split at h
      . simp at h
      . next huser =>
        simp only [Except.ok.injEq, Option.some.injEq] at h
        simp only [Bool.not_eq_true, Bool.not_eq_false] at hpresent huser
        refine ⟨?_, hpresent, h⟩
        by_contra hkern
        have := hd.kern _ (Nat.not_lt.mp hkern)
        simp [huser] at this

theorem copyoutLoop_xfer {fuel va : Nat} {buf : List UInt8} {ok : Bool} (hd : d.Wf)
    (h : copyoutLoop d fuel va buf m = .ok (ok, m'))
    : m.Xfer d.frames m' d.frames := by
  induction fuel generalizing va buf m with
  | zero =>
    simp only [copyoutLoop, Except.ok.injEq, Prod.mk.injEq] at h
    rw [← h.2]
    exact .refl m _
  | succ fuel ih =>
    unfold copyoutLoop at h
    split at h
    . dsimp only at h
      split at h
      . simp at h
      . simp only [Except.ok.injEq, Prod.mk.injEq] at h
        rw [← h.2]
        exact .refl m _
      . next p hp =>
        obtain ⟨hv, hpresent, rfl⟩ := uva2ka_eq_some hd hp
        exact (write_xfer_frames hv hpresent _ _).trans (ih h)
    . simp only [Except.ok.injEq, Prod.mk.injEq] at h
      rw [← h.2]
      exact .refl m _

theorem pushArgs_xfer {argv : List (List UInt8)} {argc sp : Nat} {ustack : List Nat}
    {r : Option (Nat × List Nat)} (hd : d.Wf) (h : pushArgs d argv argc sp ustack m = .ok (r, m'))
    : m.Xfer d.frames m' d.frames := by
  induction argv generalizing argc sp ustack m with
  | nil =>
    simp only [pushArgs, Except.ok.injEq, Prod.mk.injEq] at h
    rw [← h.2]
    exact .refl m _
  | cons arg argv ih =>
    unfold pushArgs at h
    split at h
    . simp only [Except.ok.injEq, Prod.mk.injEq] at h
      rw [← h.2]
      exact .refl m _
    . dsimp only at h
      split at h
      . simp at h
      . next m1 hcopy =>
        simp only [Except.ok.injEq, Prod.mk.injEq] at h
        rw [← h.2]
        exact copyoutLoop_xfer hd hcopy
      . next m1 hcopy => exact (copyoutLoop_xfer hd hcopy).trans (ih h)

theorem clearpteu_trades {uva : Nat} (hd : d.Wf) (h : clearpteu d uva m = .ok d')
    : d' = d.setPte (uva / PGSIZE) { d.pte (uva / PGSIZE) with user := false } ∧ Trades d m d' m := by
  unfold clearpteu at h
  split at h
  . simp at h
  . next r hwalk =>
    simp only [Except.ok.injEq] at h
    subst h
    have hframe : (d.setPte (uva / PGSIZE) { d.pte (uva / PGSIZE) with user := false }).frame = d.frame := by
      rw [PgDir.setPte_frame]
      funext w
      by_cases hw : w = uva / PGSIZE
      . rw [hw, Function.update_self]
        rfl
      . rw [Function.update_of_ne hw]
    have hframes : (d.setPte (uva / PGSIZE) { d.pte (uva / PGSIZE) with user := false }).frames = d.frames := by
      unfold PgDir.frames PgDir.pages
      rw [PgDir.setPte_tabs, hframe, PgDir.setPte_page]
    refine ⟨rfl, ?_, ?_⟩
    . apply hd.setPte
      . have := walkpgdir_false_isSome hwalk
        have hpdx : uva / PGSIZE / NPTENTRIES = pdx uva := by
          unfold pdx
          rw [Nat.div_div_eq_div_mul]
        rw [hpdx]
        exact this
      . intro habsent
        rw [hd.zero _ habsent]
        rfl
      . simp
      . simp
    . rw [hframes]
      exact .refl m _

-- The pages below `sz` are there, and no others.
def Full (d : PgDir) (sz : Nat) : Prop :=
  ∀ w < UPAGES, (d.pte w).present = true ↔ w < npages sz

theorem loadLoop_xfer {v k sz offset fuel sz' : Nat} {ip : Inode} {ok : Bool} (hfull : Full d sz')
    (hsz' : sz' ≤ KERNBASE) (hsz : v * PGSIZE + sz ≤ sz')
    (h : loadLoop d (v * PGSIZE) ip offset sz fuel (k * PGSIZE) m = .ok (ok, m'))
    : m.Xfer d.frames m' d.frames := by
  induction fuel generalizing k m with
  | zero =>
    unfold loadLoop at h
    split at h
    . simp at h
    . simp only [Except.ok.injEq, Prod.mk.injEq] at h
      rw [← h.2]
      exact .refl m _
  | succ fuel ih =>
    unfold loadLoop at h
    split at h
    . next hlt =>
      have haddr : uint (v * PGSIZE + k * PGSIZE) = (v + k) * PGSIZE := by
        unfold KERNBASE at hsz'
        rw [uint_eq_self (by omega), Nat.add_mul]
      have hnext : uint (k * PGSIZE + PGSIZE) = (k + 1) * PGSIZE := by
        apply uint_next (n := 0)
        unfold KERNBASE at hsz'
        unfold NPAGES NPDENTRIES NPTENTRIES
        unfold PGSIZE at hsz hlt
        omega
      rw [haddr, hnext, mul_pgsize_div] at h
      have hvk : v + k < npages sz' := by
        rw [lt_npages, Nat.add_mul]
        omega
      have hu : v + k < UPAGES := Nat.lt_of_lt_of_le hvk (npages_le_upages hsz')
      have hwrite := fun bs => write_xfer_frames (m := m) hu ((hfull _ hu).mpr hvk) 0 bs
      split at h
      . simp at h
      . dsimp only at h
        generalize (if sz - k * PGSIZE < PGSIZE then sz - k * PGSIZE else PGSIZE) = n at h
        split at h
        . simp only [Except.ok.injEq, Prod.mk.injEq] at h
          rw [← h.2]
          exact hwrite _
        . exact (hwrite _).trans (ih h)
    . simp only [Except.ok.injEq, Prod.mk.injEq] at h
      rw [← h.2]
      exact .refl m _

theorem Full.allocuvm {oldsz newsz r : Nat} (hfull : Full d oldsz) (hd : d.Wf) (hsz : oldsz < KERNBASE)
    (h : allocuvm L d oldsz newsz m = .ok (r, d', m')) (hr : r ≠ 0)
    : Full d' r ∧ r < KERNBASE ∧ newsz ≤ r := by
  rcases (allocuvm_trades hd h).2 with ⟨hzero, -⟩ | ⟨rfl, hlt, rfl⟩ | ⟨rfl, hle, hlt, hpresent⟩
  . exact absurd hzero hr
  . exact ⟨hfull, hsz, Nat.le_of_lt hlt⟩
  . refine ⟨?_, hlt, Nat.le_refl r⟩
    intro w hw
    have hmono := npages_mono hle
    rw [hpresent, hfull w hw]
    omega

theorem loadSegment_trades {ip : Inode} {ph : Proghdr} {sz sz' : Nat} {ok : Bool} (hfull : Full d sz)
    (hd : d.Wf) (hsz : sz < KERNBASE) (hvaddr : ph.vaddr < 2 ^ 32) (hmemsz : ph.memsz < 2 ^ 32)
    (h : loadSegment L ip ph d sz m = .ok (ok, sz', d', m'))
    : Trades d m d' m' ∧ (ok = true → Full d' sz' ∧ sz' < KERNBASE) := by
  unfold loadSegment at h
  split at h
  . simp only [Except.ok.injEq, Prod.mk.injEq] at h
    obtain ⟨rfl, rfl, rfl, rfl⟩ := h
    exact ⟨.refl hd m, fun _ => ⟨hfull, hsz⟩⟩
  . split at h
    . simp only [Except.ok.injEq, Prod.mk.injEq] at h
      obtain ⟨rfl, rfl, rfl, rfl⟩ := h
      exact ⟨.refl hd m, by simp⟩
    . next hfilesz =>
      split at h
      . simp only [Except.ok.injEq, Prod.mk.injEq] at h
        obtain ⟨rfl, rfl, rfl, rfl⟩ := h
        exact ⟨.refl hd m, by simp⟩
      . next hwrap =>
        split at h
        . simp at h
        . next r d1 m1 halloc =>
          have htrades := (allocuvm_trades hd halloc).1
          split at h
          . simp only [Except.ok.injEq, Prod.mk.injEq] at h
            obtain ⟨rfl, rfl, rfl, rfl⟩ := h
            exact ⟨htrades, by simp⟩
          . next hr =>
            split at h
            . simp only [Except.ok.injEq, Prod.mk.injEq] at h
              obtain ⟨rfl, rfl, rfl, rfl⟩ := h
              exact ⟨htrades, by simp⟩
            . next haligned =>
              obtain ⟨hfull1, hlt, hle⟩ := hfull.allocuvm hd hsz halloc hr
              split at h
              . simp at h
              . next ok' m2 hload =>
                simp only [Except.ok.injEq, Prod.mk.injEq] at h
                obtain ⟨rfl, rfl, rfl, rfl⟩ := h
                have hxfer : m1.Xfer d1.frames m2 d1.frames := by
                  unfold loaduvm at hload
                  rw [if_neg haligned] at hload
                  have heq : ph.vaddr = ph.vaddr / PGSIZE * PGSIZE := by
                    unfold PGSIZE at haligned ⊢
                    omega
                  rw [heq] at hload
                  apply loadLoop_xfer (k := 0) hfull1 (Nat.le_of_lt hlt) _ (by simpa using hload)
                  -- the sum does not wrap around, so the segment lies below the new size
                  rw [← heq]
                  unfold uint at hwrap hle
                  omega
                exact ⟨htrades.trans ⟨htrades.wf, hxfer⟩, fun _ => ⟨hfull1, hlt⟩⟩

theorem le32_lt (bs : List UInt8) (off : Nat) : le32 bs off < 2 ^ 32 := by
  have hbyte : ∀ i, (bs.getD i 0).toNat < 256 := fun i => (bs.getD i 0).toNat_lt
  have h0 := hbyte off
  have h1 := hbyte (off + 1)
  have h2 := hbyte (off + 2)
  have h3 := hbyte (off + 2 + 1)
  unfold le32 le16
  omega

theorem readProghdr_lt {ip : Inode} {off : Nat} {ph : Proghdr} (h : readProghdr ip off = some ph)
    : ph.vaddr < 2 ^ 32 ∧ ph.memsz < 2 ^ 32 := by
  unfold readProghdr at h
  dsimp only at h
  split at h
  . simp at h
  . simp only [Option.some.injEq] at h
    subst h
    exact ⟨le32_lt _ _, le32_lt _ _⟩

theorem loadSegments_trades {ip : Inode} {n off sz sz' : Nat} {ok : Bool} (hfull : Full d sz) (hd : d.Wf)
    (hsz : sz < KERNBASE) (h : loadSegments L ip n off d sz m = .ok (ok, sz', d', m'))
    : Trades d m d' m' ∧ (ok = true → Full d' sz' ∧ sz' < KERNBASE) := by
  induction n generalizing off d sz m with
  | zero =>
    simp only [loadSegments, Except.ok.injEq, Prod.mk.injEq] at h
    obtain ⟨rfl, rfl, rfl, rfl⟩ := h
    exact ⟨.refl hd m, fun _ => ⟨hfull, hsz⟩⟩
  | succ n ih =>
    unfold loadSegments at h
    split at h
    . simp only [Except.ok.injEq, Prod.mk.injEq] at h
      obtain ⟨rfl, rfl, rfl, rfl⟩ := h
      exact ⟨.refl hd m, by simp⟩
    . next ph hph =>
      obtain ⟨hvaddr, hmemsz⟩ := readProghdr_lt hph
      split at h
      . simp at h
      . next hseg =>
        simp only [Except.ok.injEq, Prod.mk.injEq] at h
        obtain ⟨rfl, rfl, rfl, rfl⟩ := h
        exact ⟨(loadSegment_trades hfull hd hsz hvaddr hmemsz hseg).1, by simp⟩
      . next hseg =>
        obtain ⟨htrades, hok⟩ := loadSegment_trades hfull hd hsz hvaddr hmemsz hseg
        obtain ⟨hfull1, hsz1⟩ := hok rfl
        obtain ⟨htrades', hok'⟩ := ih hfull1 htrades.wf hsz1 h
        exact ⟨htrades.trans htrades', hok'⟩

theorem setupStack_trades {sz entry : Nat} {argv : List (List UInt8)} {image : Option Image} (hd : d.Wf)
    (hfull : Full d sz) (hsz : sz < KERNBASE) (h : setupStack L d sz entry argv m = .ok (image, d', m'))
    : Trades d m d' m' ∧ ∀ i ∈ image, i.pgdir = d' ∧ i.sz < KERNBASE ∧ Full d' i.sz := by
  unfold setupStack at h
  dsimp only at h
  rw [pgroundup_eq_npages (Nat.le_of_lt hsz)] at h
  split at h
  . simp at h
  . next r d1 m1 halloc =>
    obtain ⟨htrades, hr⟩ := allocuvm_trades hd halloc
    split at h
    . simp only [Except.ok.injEq, Prod.mk.injEq] at h
      obtain ⟨rfl, rfl, rfl⟩ := h
      exact ⟨htrades, by simp⟩
    . next hne =>
      have hle := npages_le_upages (Nat.le_of_lt hsz)
      have hround : Full d (npages sz * PGSIZE) := by
        intro w hw
        rw [hfull w hw, lt_npages, lt_npages, ← lt_npages]
        unfold PGSIZE
        omega
      have hup : npages sz * PGSIZE ≤ KERNBASE := by
        unfold UPAGES KERNBASE PGSIZE at *
        omega
      have hnext : npages sz * PGSIZE ≤ uint (npages sz * PGSIZE + 2 * PGSIZE) := by
        unfold KERNBASE at hup
        unfold uint PGSIZE at *
        omega
      obtain ⟨hlt, hfull1⟩ : r < KERNBASE ∧ Full d1 r := by
        rcases hr with ⟨hr, -⟩ | ⟨-, hr, -⟩ | ⟨heq, -, hr, hpresent⟩
        . exact absurd hr hne
        . omega
        . refine ⟨by omega, ?_⟩
          intro w hw
          have hmono := npages_mono hnext
          rw [hpresent, hround w hw, heq]
          omega
      split at h
      . simp at h
      . next d2 hclear =>
        have hfull2 : Full d2 r := by
          intro w hw
          rw [(clearpteu_trades (m := m1) htrades.wf hclear).1, ← hfull1 w hw, PgDir.setPte_pte]
          split
          . next heq => rw [heq]
          . rfl
        have htrades2 := htrades.trans (clearpteu_trades htrades.wf hclear).2
        split at h
        . simp at h
        . next m2 hpush =>
          simp only [Except.ok.injEq, Prod.mk.injEq] at h
          obtain ⟨rfl, rfl, rfl⟩ := h
          exact ⟨htrades2.trans ⟨htrades2.wf, pushArgs_xfer htrades2.wf hpush⟩, by simp⟩
        . next sp args m2 hpush =>
          have htrades3 := htrades2.trans ⟨htrades2.wf, pushArgs_xfer htrades2.wf hpush⟩
          split at h
          . simp at h
          . next m3 hcopy =>
            simp only [Except.ok.injEq, Prod.mk.injEq] at h
            obtain ⟨rfl, rfl, rfl⟩ := h
            exact ⟨htrades3.trans ⟨htrades2.wf, copyoutLoop_xfer htrades2.wf hcopy⟩, by simp⟩
          . next m3 hcopy =>
            simp only [Except.ok.injEq, Prod.mk.injEq] at h
            obtain ⟨rfl, rfl, rfl⟩ := h
            refine ⟨htrades3.trans ⟨htrades2.wf, copyoutLoop_xfer htrades2.wf hcopy⟩, ?_⟩
            intro i hi
            simp only [Option.mem_def, Option.some.injEq] at hi
            subst hi
            exact ⟨rfl, hlt, hfull2⟩

theorem loadImage_trades {ip : Inode} {elf : Elfhdr} {argv : List (List UInt8)} {image : Option Image}
    (hd : d.Wf) (hfull : Full d 0) (h : loadImage L ip elf argv d m = .ok (image, d', m'))
    : Trades d m d' m' ∧ ∀ i ∈ image, i.pgdir = d' ∧ i.sz < KERNBASE ∧ Full d' i.sz := by
  have hzero : 0 < KERNBASE := by decide
  unfold loadImage at h
  split at h
  . simp at h
  . next hseg =>
    simp only [Except.ok.injEq, Prod.mk.injEq] at h
    obtain ⟨rfl, rfl, rfl⟩ := h
    exact ⟨(loadSegments_trades hfull hd hzero hseg).1, by simp⟩
  . next hseg =>
    obtain ⟨htrades, hok⟩ := loadSegments_trades hfull hd hzero hseg
    obtain ⟨htrades', himage⟩ := setupStack_trades htrades.wf (hok rfl).1 (hok rfl).2 h
    exact ⟨htrades.trans htrades', himage⟩

theorem freevm_xfer (hd : d.Wf) (hvalid : ∀ p ∈ d.frames, Valid L p) (h : freevm L d m = .ok m')
    : m.Xfer d.frames m' 0 := by
  obtain ⟨m2, heq, hxfer⟩ := freevm_eq_ok (m := m) hd hvalid
  rw [h, Except.ok.injEq] at heq
  rw [heq]
  exact hxfer

-- What `exec` leaves: the old address space on failure, and the new one in its place on success.
def execFrames (old : PgDir) : Option Image → Multiset Ppn
  | none => old.frames
  | some image => image.pgdir.frames

theorem exec_xfer {ip : Option Inode} {argv : List (List UInt8)} {old : PgDir} {image : Option Image}
    (hold : old.Wf) (hs : m.Sound (Valid L) old.frames) (h : exec L ip argv old m = .ok (image, m'))
    : m.Xfer old.frames m' (execFrames old image) ∧
        ∀ i ∈ image, i.pgdir.Wf ∧ i.sz < KERNBASE ∧ Full i.pgdir i.sz := by
  have hfail : ∀ m1, Except.ok (none, m) = (Except.ok (image, m1) : Res (Option Image × Mem)) →
      m.Xfer old.frames m1 (execFrames old image) ∧
        ∀ i ∈ image, i.pgdir.Wf ∧ i.sz < KERNBASE ∧ Full i.pgdir i.sz := by
    intro m1 heq
    simp only [Except.ok.injEq, Prod.mk.injEq] at heq
    obtain ⟨rfl, rfl⟩ := heq
    exact ⟨.refl m _, by simp⟩
  unfold exec at h
  split at h
  . exact hfail m' h
  . split at h
    . exact hfail m' h
    . split at h
      . exact hfail m' h
      . have hfree : ∀ p ∈ m.free, Valid L p := fun p hp => hs.valid p (Multiset.mem_add.mpr (.inr hp))
        rcases setupkvm_cases hfree with ⟨-, d, m1, heq, hwf, hxfer, -, hpages⟩ | ⟨-, m1, heq, hxfer⟩
        . rw [heq] at h
          dsimp only at h
          have hfull : Full d 0 := by
            intro w hw
            simp [hpages w hw, npages, PGSIZE]
          have hx1 := hxfer.frame old.frames
          rw [zero_add] at hx1
          split at h
          . simp at h
          . next d2 m2 himage =>
            have htrades := (loadImage_trades hwf hfull himage).1
            have hx2 := hx1.trans (htrades.xfer.frame old.frames)
            split at h
            . simp at h
            . next m3 hfreevm =>
              simp only [Except.ok.injEq, Prod.mk.injEq] at h
              obtain ⟨rfl, rfl⟩ := h
              have hx3 := (freevm_xfer htrades.wf (fun p hp => (hx2.sound hs).valid p (by
                rw [Multiset.mem_add, Multiset.mem_add]
                exact .inl (.inl hp))) hfreevm).frame old.frames
              rw [zero_add] at hx3
              exact ⟨hx2.trans hx3, by simp⟩
          . next i d2 m2 himage =>
            obtain ⟨htrades, hi⟩ := loadImage_trades hwf hfull himage
            obtain ⟨rfl, hisz, hifull⟩ := hi i rfl
            have hx2 := hx1.trans (htrades.xfer.frame old.frames)
            split at h
            . simp at h
            . next m3 hfreevm =>
              simp only [Except.ok.injEq, Prod.mk.injEq] at h
              obtain ⟨rfl, rfl⟩ := h
              have hx3 := (freevm_xfer hold (fun p hp => (hx2.sound hs).valid p (by
                rw [Multiset.mem_add, Multiset.mem_add]
                exact .inl (.inr hp))) hfreevm).frame i.pgdir.frames
              rw [zero_add, add_comm] at hx3
              refine ⟨hx2.trans hx3, ?_⟩
              intro i' hi'
              simp only [Option.mem_def, Option.some.injEq] at hi'
              subst hi'
              exact ⟨htrades.wf, hisz, hifull⟩
        . rw [heq] at h
          simp only [Except.ok.injEq, Prod.mk.injEq] at h
          obtain ⟨rfl, rfl⟩ := h
          have := hxfer.frame old.frames
          rw [zero_add] at this
          exact ⟨this, by simp⟩

end

end Xv6.Vm
