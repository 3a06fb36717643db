import Xv6.Fs.Lemmas
import Xv6.Lib.Outcome

/-!
`bmap`: an inode gets new blocks and keeps those that it has.
-/

namespace Xv6.Fs

open Bytes Outcome

variable {sb : Superblock} {disk disk' disk1 disk2 : Disk} {ino : Nat → Dinode} {held : List Nat} {ip ip' ip1 ip2 : Dinode}
  {i inum b k bn : Nat}

theorem slot_setAddr (hk : k < NDIRECT) (s : Slot)
    : slot disk (setAddr ip k b) s = if s = .data k then b else slot disk ip s := by
  have hne : NDIRECT ≠ k := Nat.ne_of_gt hk
  cases s with
  | table => simp [slot, setAddr, hne]
  | data bn =>
    simp only [slot, setAddr, Function.update_of_ne hne, Slot.data.injEq]
    by_cases hbn : bn = k
    . simp [hbn, hk]
    . simp [hbn]

theorem slot_setTable (htable : ip.addrs NDIRECT = 0) (hzero : disk b = fun _ => 0) (s : Slot)
    : slot disk (setAddr ip NDIRECT b) s = if s = .table then b else slot disk ip s := by
  cases s with
  | table => simp [slot, setAddr]
  | data bn =>
    simp only [slot, setAddr, Function.update_self, htable, hzero, reduceCtorEq, if_false]
    split
    . next hbn => rw [Function.update_of_ne (Nat.ne_of_lt hbn)]
    . simp [get32]

theorem slot_put32 (hbn : NDIRECT ≤ bn) (hmax : bn < MAXFILE) (htable : ip.addrs NDIRECT ≠ 0) (hb : b < 2 ^ 32)
    (s : Slot)
    : slot (Function.update disk (ip.addrs NDIRECT) (put32 (disk (ip.addrs NDIRECT)) (4 * (bn - NDIRECT)) b)) ip s =
      if s = .data bn then b else slot disk ip s := by
  cases s with
  | table => rfl
  | data c =>
    by_cases hc : c = bn
    . rw [hc, slot_indirect hbn hmax htable, Function.update_self, get32_put32 hb, if_pos rfl]
    . rw [if_neg (by simpa using hc)]
      by_cases hdirect : c < NDIRECT
      . rw [slot_direct hdirect, slot_direct hdirect]
      . by_cases hcmax : c < MAXFILE
        . have hcN : NDIRECT ≤ c := Nat.le_of_not_lt hdirect
          rw [slot_indirect hcN hcmax htable, slot_indirect hcN hcmax htable, Function.update_self,
            get32_put32_of_disjoint]
          unfold NDIRECT at *
          omega
        . rw [slot_of_le (Nat.le_of_not_lt hcmax), slot_of_le (Nat.le_of_not_lt hcmax)]

/-- Only the inode `inum` and its blocks change. -/
structure Writes (sb : Superblock) (inum : Nat) (disk : Disk) (ino : Nat → Dinode) (disk' : Disk) (ip' : Dinode)
    : Prop where
  live : inum < sb.ninodes ∧ (ino inum).type ≠ 0
  owned : Owned sb disk' (Function.update ino inum ip') []
  keep : ∀ s, slot disk (ino inum) s ≠ 0 → slot disk' ip' s = slot disk (ino inum) s
  fields : ip' = { ino inum with addrs := ip'.addrs }
  fits : ip'.Fits
  dinode : ∀ i < sb.ninodes, dinode sb disk' i = dinode sb disk i
  data : ∀ x : Nat × Slot, x.1 ≠ inum → own sb disk ino x ≠ 0 → disk' (own sb disk ino x) = disk (own sb disk ino x)

namespace Writes

theorem type_eq (h : Writes sb inum disk ino disk' ip') : ip'.type = (ino inum).type := by
  rw [h.fields]

theorem size_eq (h : Writes sb inum disk ino disk' ip') : ip'.size = (ino inum).size := by
  rw [h.fields]

theorem live' (h : Writes sb inum disk ino disk' ip')
    : inum < sb.ninodes ∧ (Function.update ino inum ip' inum).type ≠ 0 := by
  rw [Function.update_self, h.type_eq]
  exact h.live

theorem own_of_ne (h : Writes sb inum disk ino disk' ip') {x : Nat × Slot} (hx : x.1 ≠ inum)
    : own sb disk' (Function.update ino inum ip') x = own sb disk ino x := by
  rw [own_update_of_ne hx]
  unfold own
  split
  . next hlive =>
    apply slot_congr
    intro htable
    have := h.data (x.1, .table) hx
    rw [own_live hlive.1 hlive.2] at this
    exact this htable
  . rfl

theorem own_eq (h : Writes sb inum disk ino disk' ip') {x : Nat × Slot} (hx : own sb disk ino x ≠ 0)
    : own sb disk' (Function.update ino inum ip') x = own sb disk ino x := by
  by_cases hinum : x.1 = inum
  . obtain ⟨i, s⟩ := x
    dsimp only at hinum
    subst hinum
    rw [own_live h.live.1 h.live.2] at hx ⊢
    rw [own_update h.live.1 (by rw [h.type_eq]; exact h.live.2), h.keep s hx]
  . exact h.own_of_ne hinum

theorem trans (h : Writes sb inum disk ino disk1 ip1)
    (h' : Writes sb inum disk1 (Function.update ino inum ip1) disk2 ip2)
    : Writes sb inum disk ino disk2 ip2 where
  live := h.live
  owned := by
    have := h'.owned
    rwa [Function.update_idem] at this
  keep s hs := by
    have := h'.keep s
    rw [Function.update_self, h.keep s hs] at this
    exact this hs
  fields := by
    have := h'.fields
    rw [Function.update_self] at this
    rw [this]
    rw [h.fields]
  fits := h'.fits
  dinode i hi := (h'.dinode i hi).trans (h.dinode i hi)
  data x hx hne := by
    have := h'.data x hx
    rw [h.own_of_ne hx] at this
    exact (this hne).trans (h.data x hx hne)

end Writes

/-- The inode `inum` gets blocks, everything else stays as it is. -/
structure Grows (sb : Superblock) (inum : Nat) (disk : Disk) (ino : Nat → Dinode) (disk' : Disk) (ip' : Dinode)
    : Prop extends Writes sb inum disk ino disk' ip' where
  blocks : ∀ x, own sb disk ino x ≠ 0 → x ≠ (inum, .table) → disk' (own sb disk ino x) = disk (own sb disk ino x)

namespace Grows

theorem refl (h : Owned sb disk ino []) (hlive : inum < sb.ninodes ∧ (ino inum).type ≠ 0) (hfits : (ino inum).Fits)
    : Grows sb inum disk ino disk (ino inum) where
  live := hlive
  owned := by
    rw [Function.update_eq_self]
    exact h
  keep _ _ := rfl
  fields := rfl
  fits := hfits
  dinode _ _ := rfl
  data _ _ _ := rfl
  blocks _ _ _ := rfl

theorem trans (h : Grows sb inum disk ino disk1 ip1) (h' : Grows sb inum disk1 (Function.update ino inum ip1) disk2 ip2)
    : Grows sb inum disk ino disk2 ip2 where
  toWrites := h.toWrites.trans h'.toWrites
  blocks x hx hne := by
    have := h'.blocks x
    rw [h.own_eq hx] at this
    exact (this hx hne).trans (h.blocks x hx hne)

end Grows

theorem Local.own (h : Owned sb disk ino held) (hl : Local sb disk disk1 b) (hb : bit sb disk b = false) {x : Nat × Slot}
    (hx : own sb disk ino x ≠ 0)
    : disk1 (own sb disk ino x) = disk (own sb disk ino x) := by
  apply hl.data _ (h.le hx)
  intro heq
  have := h.used hx
  rw [heq, hb] at this
  cases this

theorem slot_balloc (h : Owned sb disk ino []) (hlive : inum < sb.ninodes ∧ (ino inum).type ≠ 0)
    (hb : balloc sb disk = .ok (disk1, b)) (s : Slot)
    : slot disk1 (ino inum) s = slot disk (ino inum) s := by
  obtain ⟨-, hlocal, -, hfree⟩ := balloc_spec h hb
  have := own_congr (fun i hi => hlocal.own h hfree hi) (inum, s)
  rwa [own_live hlive.1 hlive.2, own_live hlive.1 hlive.2] at this

/--
A new block goes into the place `s` of the inode. In memory this is `ip2`, on the disk at most the table of the inode
changes.
-/
theorem Grows.attach {s : Slot} (h : Owned sb disk ino []) (hlive : inum < sb.ninodes ∧ (ino inum).type ≠ 0)
    (hb : balloc sb disk = .ok (disk1, b)) (hs : slot disk (ino inum) s = 0)
    (hslot : ∀ s', slot disk2 ip2 s' = if s' = s then b else slot disk1 (ino inum) s')
    (hdisk : ∀ x, x ≠ (ino inum).addrs NDIRECT → disk2 x = disk1 x)
    (hno : (ino inum).addrs NDIRECT = 0 → disk2 = disk1)
    (hfields : ip2 = { ino inum with addrs := ip2.addrs }) (hfits : ip2.Fits)
    : Grows sb inum disk ino disk2 ip2 := by
  obtain ⟨h1, hlocal, -, hfree⟩ := balloc_spec h hb
  have hown : ∀ {x}, own sb disk ino x ≠ 0 → disk1 (own sb disk ino x) = disk (own sb disk ino x) :=
    fun hx => hlocal.own h hfree hx
  have hown1 : ∀ x, own sb disk1 ino x = own sb disk ino x := own_congr fun i hi => hown hi
  have hslot1 : ∀ s', slot disk1 (ino inum) s' = slot disk (ino inum) s' := slot_balloc h hlive hb
  have htable : own sb disk ino (inum, .table) = (ino inum).addrs NDIRECT := own_live hlive.1 hlive.2 .table
  have htype : ip2.type ≠ 0 := by
    rw [hfields]
    exact hlive.2
  -- the table lies among the data blocks
  have hmeta : ∀ x, x < sb.nmeta → disk2 x = disk1 x := by
    intro x hx
    by_cases hzero : (ino inum).addrs NDIRECT = 0
    . rw [hno hzero]
    . apply hdisk
      have := h.le (x := (inum, .table)) (by rwa [htable])
      rw [htable] at this
      omega
  have hother : ∀ x, own sb disk ino x ≠ 0 → x ≠ (inum, .table) → disk2 (own sb disk ino x) = disk1 (own sb disk ino x) := by
    intro x hx hne
    apply hdisk
    intro heq
    rw [← htable] at heq
    exact hne (h.ledger.inj x _ hx heq)
  refine ⟨⟨hlive, ⟨?_, ?_⟩, ?_, hfields, hfits, ?_, ?_⟩, ?_⟩
  . have hf : ∀ x, own sb disk2 (Function.update ino inum ip2) x = if x = (inum, s) then b else own sb disk1 ino x := by
      rintro ⟨i, s'⟩
      by_cases hi : i = inum
      . subst hi
        rw [own_update hlive.1 htype, hslot, own_live hlive.1 hlive.2]
        simp
      . rw [own_update_of_ne hi, if_neg (by simp [hi]), hown1]
        unfold own
        split
        . next hilive =>
          apply slot_congr
          intro htab
          have hne : own sb disk ino (i, .table) ≠ 0 := by rwa [own_live hilive.1 hilive.2]
          have := (hother (i, .table) hne (by simp [hi])).trans (hown hne)
          rwa [own_live hilive.1 hilive.2] at this
        . rfl
    have hzero : own sb disk1 ino (inum, s) = 0 := by
      rw [own_live hlive.1 hlive.2, hslot1, hs]
    apply (h1.ledger.attach hzero hf).congr (fun _ => rfl)
    intro c _ hc
    rw [bit_congr (hmeta _ (BBLOCK_lt (Nat.le_of_lt hc)))]
  . intro c hc
    rw [bit_congr (hmeta _ (BBLOCK_lt (Nat.le_of_lt (Nat.lt_of_lt_of_le hc sb.meta_le))))]
    exact h1.reserved c hc
  . intro s' hs'
    rw [hslot, if_neg, hslot1]
    rintro rfl
    exact hs' hs
  . intro i hi
    have := IBLOCK_lt hi
    have := bmapstart_lt sb
    rw [← hlocal.dinode i hi]
    exact dinode_congr (hmeta _ (by omega))
  . intro x hx hne
    rw [hother x hne (fun heq => hx (by rw [heq])), hown hne]
  . intro x hx hne
    rw [hother x hx hne, hown hx]

theorem setAddr_fits (h : ip.Fits) (hk : k ≤ NDIRECT) (hb : b < 2 ^ 32) : (setAddr ip k b).Fits where
  type := h.type
  major := h.major
  minor := h.minor
  nlink := h.nlink
  size := h.size
  addrs j := by
    simp only [setAddr, Function.update_apply]
    split
    . exact hb
    . exact h.addrs j
  rest j hj := by
    have : j ≠ k := by omega
    simp only [setAddr, Function.update_of_ne this]
    exact h.rest j hj

theorem balloc_lt (h : Owned sb disk ino held) (hb : balloc sb disk = .ok (disk', b)) : b < 2 ^ 32 := by
  have := ((balloc_spec h hb).1.ledger.rangeHeld b List.mem_cons_self).2
  have := sb.size_le
  omega

theorem balloc_ne_zero (h : Owned sb disk ino held) (hb : balloc sb disk = .ok (disk', b)) : b ≠ 0 :=
  (balloc_spec h hb).1.ledger.ne_zero List.mem_cons_self

theorem bmapTable_spec (h : Owned sb disk ino []) (hlive : inum < sb.ninodes ∧ (ino inum).type ≠ 0)
    (hfits : (ino inum).Fits) (hb : bmapTable sb disk (ino inum) = .ok (disk1, ip1))
    : Grows sb inum disk ino disk1 ip1 ∧ ip1.addrs NDIRECT ≠ 0 := by
  unfold bmapTable at hb
  split at hb
  . next htable =>
    obtain ⟨⟨disk', addr⟩, halloc, hb⟩ := bind_eq_ok hb
    cases hb
    refine ⟨?_, ?_⟩
    . have hzero := (balloc_spec h halloc).2.2.1
      apply Grows.attach (s := .table) h hlive halloc htable (slot_setTable htable hzero)
      . exact fun _ _ => rfl
      . exact fun _ => rfl
      . rfl
      . exact setAddr_fits hfits le_rfl (balloc_lt h halloc)
    . simpa [setAddr] using balloc_ne_zero h halloc
  . next htable =>
    cases hb
    exact ⟨.refl h hlive hfits, htable⟩

theorem bmapEntry_spec (h : Owned sb disk ino []) (hlive : inum < sb.ninodes ∧ (ino inum).type ≠ 0)
    (hfits : (ino inum).Fits) (htable : (ino inum).addrs NDIRECT ≠ 0) (hbn : NDIRECT ≤ bn) (hmax : bn < MAXFILE)
    (hb : bmapEntry sb disk ((ino inum).addrs NDIRECT) (bn - NDIRECT) = .ok (disk1, b))
    : Grows sb inum disk ino disk1 (ino inum) ∧ slot disk1 (ino inum) (.data bn) = b ∧ b ≠ 0 := by
  unfold bmapEntry at hb
  split at hb
  . next hzero =>
    obtain ⟨⟨disk', addr⟩, halloc, hb⟩ := bind_eq_ok hb
    cases hb
    have hslot : ∀ s, slot (Function.update disk' ((ino inum).addrs NDIRECT) _) (ino inum) s =
        if s = .data bn then b else slot disk' (ino inum) s :=
      slot_put32 hbn hmax htable (balloc_lt h halloc)
    refine ⟨?_, ?_, balloc_ne_zero h halloc⟩
    . apply Grows.attach (s := .data bn) h hlive halloc _ hslot
      . intro x hx
        exact Function.update_of_ne hx _ _
      . exact fun heq => absurd heq htable
      . rfl
      . exact hfits
      . rw [slot_indirect hbn hmax htable, hzero]
    . rw [hslot, if_pos rfl]
  . next hne =>
    cases hb
    exact ⟨.refl h hlive hfits, slot_indirect hbn hmax htable, hne⟩

theorem bmap_spec (h : Owned sb disk ino []) (hlive : inum < sb.ninodes ∧ (ino inum).type ≠ 0) (hfits : (ino inum).Fits)
    (hb : bmap sb disk (ino inum) bn = .ok (disk', ip', b))
    : Grows sb inum disk ino disk' ip' ∧ slot disk' ip' (.data bn) = b ∧ b ≠ 0 := by
  unfold bmap at hb
  split at hb
  . next hdirect =>
    split at hb
    . next hzero =>
      obtain ⟨⟨disk1, addr⟩, halloc, hb⟩ := bind_eq_ok hb
      cases hb
      refine ⟨?_, ?_, balloc_ne_zero h halloc⟩
      . apply Grows.attach (s := .data bn) h hlive halloc _ (slot_setAddr hdirect)
        . exact fun _ _ => rfl
        . exact fun _ => rfl
        . rfl
        . exact setAddr_fits hfits (Nat.le_of_lt hdirect) (balloc_lt h halloc)
        . rw [slot_direct hdirect, hzero]
      . rw [slot_setAddr hdirect, if_pos rfl]
    . next hne =>
      cases hb
      exact ⟨.refl h hlive hfits, slot_direct hdirect, hne⟩
  . next hdirect =>
    have hbn : NDIRECT ≤ bn := Nat.le_of_not_lt hdirect
    split at hb
    . next hind =>
      have hmax : bn < MAXFILE := by
        unfold MAXFILE NDIRECT NINDIRECT at *
        omega
      obtain ⟨⟨disk1, ip1⟩, htab, hb⟩ := bind_eq_ok hb
      obtain ⟨⟨disk2, addr⟩, hentry, hb⟩ := bind_eq_ok hb
      cases hb
      obtain ⟨hgrow, htable⟩ := bmapTable_spec h hlive hfits htab
      have hself : Function.update ino inum ip' inum = ip' := Function.update_self _ _ _
      have hlive' : inum < sb.ninodes ∧ (Function.update ino inum ip' inum).type ≠ 0 := by
        rw [hself, hgrow.type_eq]
        exact hlive
      have hspec := bmapEntry_spec hgrow.owned hlive' (by rw [hself]; exact hgrow.fits) (by rwa [hself]) hbn hmax
        (by rw [hself]; exact hentry)
      rw [hself] at hspec
      obtain ⟨hgrow', hslot, hne⟩ := hspec
      exact ⟨hgrow.trans hgrow', hslot, hne⟩
    . cases hb

theorem bmapTable_data (h : Owned sb disk ino []) (hlive : inum < sb.ninodes ∧ (ino inum).type ≠ 0)
    (hb : bmapTable sb disk (ino inum) = .ok (disk1, ip1))
    : slot disk1 ip1 (.data k) = slot disk (ino inum) (.data k) := by
  unfold bmapTable at hb
  split at hb
  . next htable =>
    obtain ⟨⟨disk', addr⟩, halloc, hb⟩ := bind_eq_ok hb
    cases hb
    rw [slot_setTable htable (balloc_spec h halloc).2.2.1, if_neg (by simp), slot_balloc h hlive halloc]
  . cases hb
    rfl

theorem bmapEntry_data (h : Owned sb disk ino []) (hlive : inum < sb.ninodes ∧ (ino inum).type ≠ 0)
    (htable : (ino inum).addrs NDIRECT ≠ 0) (hbn : NDIRECT ≤ bn) (hmax : bn < MAXFILE)
    (hb : bmapEntry sb disk ((ino inum).addrs NDIRECT) (bn - NDIRECT) = .ok (disk1, b)) (hk : k ≠ bn)
    : slot disk1 (ino inum) (.data k) = slot disk (ino inum) (.data k) := by
  unfold bmapEntry at hb
  split at hb
  . obtain ⟨⟨disk', addr⟩, halloc, hb⟩ := bind_eq_ok hb
    cases hb
    rw [slot_put32 hbn hmax htable (balloc_lt h halloc), if_neg (by simpa using hk), slot_balloc h hlive halloc]
  . cases hb
    rfl

-- The other blocks of the inode stay as they are, the missing ones too.
theorem bmap_data (h : Owned sb disk ino []) (hlive : inum < sb.ninodes ∧ (ino inum).type ≠ 0) (hfits : (ino inum).Fits)
    (hb : bmap sb disk (ino inum) bn = .ok (disk', ip', b)) (hk : k ≠ bn)
    : slot disk' ip' (.data k) = slot disk (ino inum) (.data k) := by
  unfold bmap at hb
  split at hb
  . next hdirect =>
    split at hb
    . obtain ⟨⟨disk1, addr⟩, halloc, hb⟩ := bind_eq_ok hb
      cases hb
      rw [slot_setAddr hdirect, if_neg (by simpa using hk), slot_balloc h hlive halloc]
    . cases hb
      rfl
  . next hdirect =>
    split at hb
    . next hind =>
      have hmax : bn < MAXFILE := by
        unfold MAXFILE NDIRECT NINDIRECT at *
        omega
      obtain ⟨⟨disk1, ip1⟩, htab, hb⟩ := bind_eq_ok hb
      obtain ⟨⟨disk2, addr⟩, hentry, hb⟩ := bind_eq_ok hb
      cases hb
      obtain ⟨hgrow, htable⟩ := bmapTable_spec h hlive hfits htab
      have hself : Function.update ino inum ip' inum = ip' := Function.update_self _ _ _
      have hlive' : inum < sb.ninodes ∧ (Function.update ino inum ip' inum).type ≠ 0 := by
        rw [hself, hgrow.type_eq]
        exact hlive
      have hdata := bmapEntry_data (k := k) hgrow.owned hlive' (by rwa [hself]) (Nat.le_of_not_lt hdirect) hmax
        (by rw [hself]; exact hentry) hk
      rw [hself] at hdata
      rw [hdata, bmapTable_data h hlive htab]
    . cases hb

theorem bmap_of_mapped (sb : Superblock) (hbn : bn < MAXFILE) (h : slot disk ip (.data bn) ≠ 0)
    : bmap sb disk ip bn = .ok (disk, ip, slot disk ip (.data bn)) := by
  unfold bmap
  by_cases hdirect : bn < NDIRECT
  . rw [slot_direct hdirect] at h ⊢
    rw [if_pos hdirect, if_neg h]
  . have hN : NDIRECT ≤ bn := Nat.le_of_not_lt hdirect
    have htable : ip.addrs NDIRECT ≠ 0 := by
      intro hzero
      exact h (slot_no_table hN hzero)
    rw [slot_indirect hN hbn htable] at h ⊢
    have hind : bn - NDIRECT < NINDIRECT := by
      unfold MAXFILE NDIRECT NINDIRECT at *
      omega
    rw [if_neg hdirect, if_pos hind]
    simp only [bmapTable, if_neg htable, bind, Except.bind, bmapEntry, if_neg h, pure, Except.pure]

theorem balloc_error {msg : String} (h : balloc sb disk = .error msg) : msg = "balloc: out of blocks" := by
  unfold balloc at h
  split at h
  . cases h
  . cases h
    rfl

theorem bmapTable_error {msg : String} (h : bmapTable sb disk ip = .error msg) : msg = "balloc: out of blocks" := by
  unfold bmapTable at h
  split at h
  . obtain h | ⟨_, _, h⟩ := bind_eq_error h
    . exact balloc_error h
    . cases h
  . cases h

theorem bmapEntry_error {msg : String} (h : bmapEntry sb disk b k = .error msg) : msg = "balloc: out of blocks" := by
  unfold bmapEntry at h
  split at h
  . obtain h | ⟨_, _, h⟩ := bind_eq_error h
    . exact balloc_error h
    . cases h
  . cases h

theorem bmap_error {msg : String} (hbn : bn < MAXFILE) (h : bmap sb disk ip bn = .error msg)
    : msg = "balloc: out of blocks" := by
  unfold bmap at h
  split at h
  . split at h
    . obtain h | ⟨_, _, h⟩ := bind_eq_error h
      . exact balloc_error h
      . cases h
    . cases h
  . split at h
    . obtain h | ⟨_, _, h⟩ := bind_eq_error h
      . exact bmapTable_error h
      . obtain h | ⟨_, _, h⟩ := bind_eq_error h
        . exact bmapEntry_error h
        . cases h
    . unfold MAXFILE NDIRECT NINDIRECT at *
      omega

end Xv6.Fs
