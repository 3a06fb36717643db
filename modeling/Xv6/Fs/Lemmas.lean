import Xv6.Fs.Impl
import Xv6.Lib.Ledger

/-!
Who owns which block. `Owned sb disk ino held` is the state of a file system in the middle of an operation: `ino` are
the inodes as they are in memory, and `held` the blocks that are marked in the bitmap and that no inode refers to.
-/

namespace Xv6.Fs

open Bytes

-- The places in which an inode refers to a block: the blocks of the file and the table of its indirect blocks.
inductive Slot where
  | data (bn : Nat)
  | table
  deriving DecidableEq, Repr

def slot (disk : Disk) (ip : Dinode) : Slot → Nat
  | .table => ip.addrs NDIRECT
  | .data bn =>
    if bn < NDIRECT then ip.addrs bn
    else if bn < MAXFILE ∧ ip.addrs NDIRECT ≠ 0 then get32 (disk (ip.addrs NDIRECT)) (4 * (bn - NDIRECT))
    else 0

variable (sb : Superblock)

def own (disk : Disk) (ino : Nat → Dinode) (x : Nat × Slot) : Nat :=
  if x.1 < sb.ninodes ∧ (ino x.1).type ≠ 0 then slot disk (ino x.1) x.2 else 0

structure Owned (disk : Disk) (ino : Nat → Dinode) (held : List Nat) : Prop where
  ledger : Ledger sb.nmeta sb.size (own sb disk ino) (fun b => bit sb disk b = true) held
  reserved : ∀ b < sb.nmeta, bit sb disk b = true

variable {sb} {disk disk' : Disk} {ino : Nat → Dinode} {held : List Nat} {ip ip' : Dinode} {i inum b k : Nat}

section

theorem IBLOCK_lt (hi : i < sb.ninodes) : IBLOCK sb i < sb.bmapstart :=
  sb.inodes_lt i hi

theorem le_BBLOCK (sb : Superblock) (b : Nat) : sb.bmapstart ≤ BBLOCK sb b :=
  Nat.le_add_left _ _

theorem BBLOCK_lt (hb : b ≤ sb.size) : BBLOCK sb b < sb.nmeta := by
  have := Nat.div_le_div_right (c := BPB) hb
  unfold BBLOCK Superblock.nmeta
  omega

theorem bmapstart_lt (sb : Superblock) : sb.bmapstart < sb.nmeta :=
  Nat.lt_succ_of_le (Nat.le_add_right _ _)

theorem dinode_congr (h : disk' (IBLOCK sb i) = disk (IBLOCK sb i)) : dinode sb disk' i = dinode sb disk i := by
  unfold dinode
  rw [h]

theorem bit_congr (h : disk' (BBLOCK sb b) = disk (BBLOCK sb b)) : bit sb disk' b = bit sb disk b := by
  unfold bit
  rw [h]

theorem bit_setBit (disk : Disk) (b c : Nat)
    : bit sb (Function.update disk (BBLOCK sb b) (setBit (disk (BBLOCK sb b)) (b % BPB))) c =
      (bit sb disk c || decide (c = b)) := by
  unfold bit
  by_cases h : BBLOCK sb c = BBLOCK sb b
  . have hcb : c % BPB = b % BPB ↔ c = b := by
      unfold BBLOCK BPB BSIZE at *
      omega
    rw [h, Function.update_self, testBit_setBit]
    simp only [hcb]
  . have hcb : c ≠ b := by
      rintro rfl
      exact h rfl
    rw [Function.update_of_ne h]
    simp [hcb]

theorem bit_clearBit (disk : Disk) (b c : Nat)
    : bit sb (Function.update disk (BBLOCK sb b) (clearBit (disk (BBLOCK sb b)) (b % BPB))) c =
      (bit sb disk c && decide (c ≠ b)) := by
  unfold bit
  by_cases h : BBLOCK sb c = BBLOCK sb b
  . have hcb : c % BPB = b % BPB ↔ c = b := by
      unfold BBLOCK BPB BSIZE at *
      omega
    rw [h, Function.update_self, testBit_clearBit]
    simp only [ne_eq, hcb]
  . have hcb : c ≠ b := by
      rintro rfl
      exact h rfl
    rw [Function.update_of_ne h]
    simp [hcb]

theorem dinode_iupdate (hip : ip.Fits) : dinode sb (iupdate sb disk inum ip) inum = ip := by
  unfold dinode iupdate
  rw [Function.update_self, getDinode_putDinode hip]

theorem dinode_iupdate_of_ne (h : i ≠ inum) : dinode sb (iupdate sb disk inum ip) i = dinode sb disk i := by
  unfold dinode iupdate
  by_cases hblock : IBLOCK sb i = IBLOCK sb inum
  . rw [hblock, Function.update_self, getDinode_putDinode_of_ne]
    unfold IBLOCK IPB BSIZE DINODE at *
    omega
  . rw [Function.update_of_ne hblock]

end

theorem slot_congr (h : ip.addrs NDIRECT ≠ 0 → disk' (ip.addrs NDIRECT) = disk (ip.addrs NDIRECT)) (s : Slot)
    : slot disk' ip s = slot disk ip s := by
  cases s with
  | table => rfl
  | data bn =>
    by_cases htable : ip.addrs NDIRECT = 0
    . simp only [slot, htable, ne_eq, not_true_eq_false, and_false, if_false]
    . simp only [slot, h htable]

theorem own_congr (h : ∀ i, own sb disk ino (i, .table) ≠ 0 →
      disk' (own sb disk ino (i, .table)) = disk (own sb disk ino (i, .table))) (x : Nat × Slot)
    : own sb disk' ino x = own sb disk ino x := by
  unfold own
  split
  . next hlive =>
    apply slot_congr
    intro htable
    have := h x.1
    rw [own, if_pos hlive] at this
    exact this htable
  . rfl

theorem slot_direct (hbn : k < NDIRECT) : slot disk ip (.data k) = ip.addrs k :=
  if_pos hbn

theorem slot_indirect (hbn : NDIRECT ≤ k) (hmax : k < MAXFILE) (htable : ip.addrs NDIRECT ≠ 0)
    : slot disk ip (.data k) = get32 (disk (ip.addrs NDIRECT)) (4 * (k - NDIRECT)) := by
  simp only [slot, if_neg (Nat.not_lt.mpr hbn), if_pos (And.intro hmax htable)]

theorem slot_no_table (hbn : NDIRECT ≤ k) (htable : ip.addrs NDIRECT = 0) : slot disk ip (.data k) = 0 := by
  simp only [slot, if_neg (Nat.not_lt.mpr hbn), htable, ne_eq, not_true_eq_false, and_false, if_false]

theorem slot_of_le (hbn : MAXFILE ≤ k) : slot disk ip (.data k) = 0 := by
  have h1 : ¬ k < NDIRECT := by
    unfold MAXFILE NDIRECT NINDIRECT at *
    omega
  simp only [slot, if_neg h1, if_neg (fun h : k < MAXFILE ∧ _ => absurd h.1 (Nat.not_lt.mpr hbn))]

theorem own_live (hi : i < sb.ninodes) (ht : (ino i).type ≠ 0) (s : Slot)
    : own sb disk ino (i, s) = slot disk (ino i) s :=
  if_pos ⟨hi, ht⟩

theorem own_update_of_ne {x : Nat × Slot} (h : x.1 ≠ inum)
    : own sb disk (Function.update ino inum ip) x = own sb disk ino x := by
  simp only [own, Function.update_of_ne h]

theorem own_update {s : Slot} (hi : inum < sb.ninodes) (ht : ip.type ≠ 0)
    : own sb disk (Function.update ino inum ip) (inum, s) = slot disk ip s := by
  have : (Function.update ino inum ip inum).type ≠ 0 := by rwa [Function.update_self]
  rw [own_live hi this, Function.update_self]

-- A write outside of the bitmap that no table is affected by.
theorem Owned.congr (h : Owned sb disk ino held)
    (htable : ∀ i, own sb disk ino (i, .table) ≠ 0 →
      disk' (own sb disk ino (i, .table)) = disk (own sb disk ino (i, .table)))
    (hbit : ∀ b < sb.size, bit sb disk' b = bit sb disk b)
    : Owned sb disk' ino held where
  ledger := by
    apply h.ledger.congr (own_congr htable)
    intro b _ hb
    rw [hbit b hb]
  reserved b hb := by
    rw [hbit b (Nat.lt_of_lt_of_le hb sb.meta_le)]
    exact h.reserved b hb

theorem Owned.used (h : Owned sb disk ino held) {x : Nat × Slot} (hx : own sb disk ino x ≠ 0)
    : bit sb disk (own sb disk ino x) = true :=
  h.ledger.used_of_place hx

theorem Owned.le (h : Owned sb disk ino held) {x : Nat × Slot} (hx : own sb disk ino x ≠ 0)
    : sb.nmeta ≤ own sb disk ino x :=
  (h.ledger.range x hx).1

-- What `balloc` and `bfree` leave alone.
structure Local (sb : Superblock) (disk disk' : Disk) (b : Nat) : Prop where
  dinode : ∀ i < sb.ninodes, dinode sb disk' i = dinode sb disk i
  data : ∀ x, sb.nmeta ≤ x → x ≠ b → disk' x = disk x

theorem balloc_spec (h : Owned sb disk ino held) (hb : balloc sb disk = .ok (disk', b))
    : Owned sb disk' ino (b :: held) ∧ Local sb disk disk' b ∧ disk' b = (fun _ => 0) ∧ bit sb disk b = false := by
  unfold balloc at hb
  split at hb
  . next c hfind =>
    simp only [Except.ok.injEq, Prod.mk.injEq] at hb
    obtain ⟨rfl, rfl⟩ := hb
    have hfree : bit sb disk c = false := by simpa using List.find?_some hfind
    have hsize : c < sb.size := List.mem_range.mp (List.mem_of_find?_eq_some hfind)
    have hdata : sb.nmeta ≤ c := by
      by_contra hlt
      rw [h.reserved c (by omega)] at hfree
      cases hfree
    have hBc := BBLOCK_lt (Nat.le_of_lt hsize)
    -- the block itself lies behind the bitmap
    have hbit : ∀ d < sb.size, bit sb (bzero (Function.update disk (BBLOCK sb c)
        (setBit (disk (BBLOCK sb c)) (c % BPB))) c) d = (bit sb disk d || decide (d = c)) := by
      intro d hd
      rw [← bit_setBit]
      apply bit_congr
      have := BBLOCK_lt (Nat.le_of_lt hd)
      exact Function.update_of_ne (by omega) _ _
    have hother : ∀ x, sb.nmeta ≤ x → x ≠ c → bzero (Function.update disk (BBLOCK sb c)
        (setBit (disk (BBLOCK sb c)) (c % BPB))) c x = disk x := by
      intro x hx hxc
      rw [bzero, Function.update_of_ne hxc, Function.update_of_ne (by omega)]
    refine ⟨⟨?_, ?_⟩, ⟨?_, hother⟩, Function.update_self _ _ _, hfree⟩
    . have htake := h.ledger.take (fun d => bit sb disk d = true ∨ d = c) hdata hsize (by simp [hfree])
        (fun _ => Iff.rfl)
      apply htake.congr
      . apply own_congr
        intro i hi
        apply hother _ (h.le hi)
        intro heq
        have := h.used hi
        rw [heq, hfree] at this
        cases this
      . intro d _ hd
        rw [hbit d hd]
        simp
    . intro d hd
      rw [hbit d (Nat.lt_of_lt_of_le hd sb.meta_le), h.reserved d hd]
      rfl
    . intro i hi
      apply dinode_congr
      have := IBLOCK_lt hi
      have := bmapstart_lt sb
      have := le_BBLOCK sb c
      rw [bzero, Function.update_of_ne (by omega), Function.update_of_ne (by omega)]
  . simp at hb

theorem bfree_spec (h : Owned sb disk ino (b :: held))
    : ∃ disk', bfree sb disk b = .ok disk' ∧ Owned sb disk' ino held ∧
      (∀ i < sb.ninodes, dinode sb disk' i = dinode sb disk i) ∧ ∀ x, sb.nmeta ≤ x → disk' x = disk x := by
  have hused : bit sb disk b = true := h.ledger.used_of_held List.mem_cons_self
  have hrange := h.ledger.rangeHeld b List.mem_cons_self
  have hB := BBLOCK_lt (Nat.le_of_lt hrange.2)
  have hother : ∀ x, sb.nmeta ≤ x →
      Function.update disk (BBLOCK sb b) (clearBit (disk (BBLOCK sb b)) (b % BPB)) x = disk x := by
    intro x hx
    exact Function.update_of_ne (by omega) _ _
  unfold bfree
  rw [hused]
  refine ⟨_, if_neg (by simp), ⟨?_, ?_⟩, ?_, hother⟩
  . have hgive := h.ledger.give (fun d => bit sb disk d = true ∧ d ≠ b) (fun _ => Iff.rfl)
    apply hgive.congr
    . apply own_congr
      intro i hi
      exact hother _ (h.le hi)
    . intro d _ _
      rw [bit_clearBit]
      simp
  . intro d hd
    rw [bit_clearBit, h.reserved d hd]
    simp only [Bool.true_and, decide_eq_true_eq]
    omega
  . intro i hi
    apply dinode_congr
    have := IBLOCK_lt hi
    have := le_BBLOCK sb b
    exact Function.update_of_ne (by omega) _ _

end Xv6.Fs
