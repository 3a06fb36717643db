import Xv6.Fs.Grow

/-!
`readi` and `writei`, in terms of the bytes of a file.
-/

namespace Xv6.Fs

open Bytes Outcome

variable {sb : Superblock} {disk disk' disk1 disk2 : Disk} {ino : Nat → Dinode} {held : List Nat} {ip ip' ip1 ip2 : Dinode}
  {i inum b k bn off n : Nat} {src : Memory}

def fileByte (disk : Disk) (ip : Dinode) (k : Nat) : UInt8 :=
  disk (slot disk ip (.data (k / BSIZE))) (k % BSIZE)

def content (disk : Disk) (ip : Dinode) : List UInt8 :=
  (List.range ip.size).map (fileByte disk ip)

theorem store_spec (h : Owned sb disk ino []) (hlive : inum < sb.ninodes ∧ (ino inum).type ≠ 0) (hfits : (ino inum).Fits)
    (hbn : slot disk (ino inum) (.data bn) = b) (hb : b ≠ 0) (blk : Block)
    : Writes sb inum disk ino (Function.update disk b blk) (ino inum) ∧
      (∀ s, slot (Function.update disk b blk) (ino inum) s = slot disk (ino inum) s) ∧
      ∀ k, fileByte (Function.update disk b blk) (ino inum) k =
        if k / BSIZE = bn then blk (k % BSIZE) else fileByte disk (ino inum) k := by
  have hown : ∀ s, own sb disk ino (inum, s) = slot disk (ino inum) s := own_live hlive.1 hlive.2
  have hne : own sb disk ino (inum, .data bn) ≠ 0 := by rwa [hown, hbn]
  have hle : sb.nmeta ≤ b := by
    have := h.le hne
    rwa [hown, hbn] at this
  have hother : ∀ x, own sb disk ino x ≠ 0 → x ≠ (inum, .data bn) →
      Function.update disk b blk (own sb disk ino x) = disk (own sb disk ino x) := by
    intro x hx hxne
    apply Function.update_of_ne
    intro heq
    rw [← hbn, ← hown] at heq
    exact hxne (h.ledger.inj x _ hx heq)
  have hslot : ∀ s, slot (Function.update disk b blk) (ino inum) s = slot disk (ino inum) s := by
    apply slot_congr
    intro htable
    have := hother (inum, .table) (by rwa [hown]) (by simp)
    rwa [hown] at this
  refine ⟨⟨hlive, ?_, fun s _ => hslot s, rfl, hfits, ?_, ?_⟩, hslot, ?_⟩
  . rw [Function.update_eq_self]
    apply h.congr
    . intro i hi
      exact hother _ hi (by simp)
    . intro c hc
      have := BBLOCK_lt (Nat.le_of_lt hc)
      exact bit_congr (Function.update_of_ne (by omega) _ _)
  . intro i hi
    have := IBLOCK_lt hi
    have := bmapstart_lt sb
    exact dinode_congr (Function.update_of_ne (by omega) _ _)
  . intro x hx hxne
    apply hother x hxne
    rintro rfl
    exact hx rfl
  . intro k
    rw [fileByte, hslot]
    by_cases hk : k / BSIZE = bn
    . rw [if_pos hk, hk, hbn, Function.update_self]
    . rw [if_neg hk, fileByte, Function.update_of_ne]
      intro heq
      rw [← hbn, ← hown, ← hown] at heq
      have := h.ledger.inj (inum, .data bn) _ hne heq.symm
      simp only [Prod.mk.injEq, Slot.data.injEq, true_and] at this
      exact hk this.symm

theorem Grows.fileByte_eq (h : Grows sb inum disk ino disk' ip') (hk : slot disk (ino inum) (.data (k / BSIZE)) ≠ 0)
    : fileByte disk' ip' k = fileByte disk (ino inum) k := by
  have hown : own sb disk ino (inum, .data (k / BSIZE)) = slot disk (ino inum) (.data (k / BSIZE)) :=
    own_live h.live.1 h.live.2 _
  have := h.blocks (inum, .data (k / BSIZE)) (by rwa [hown]) (by simp)
  rw [hown] at this
  rw [fileByte, h.keep _ hk, this, fileByte]

/--
What `writeLoop` does to the file: the blocks of the written range are there, and the bytes in it are those of `src`.
-/
structure Wrote (disk : Disk) (ip : Dinode) (src : Memory) (off n : Nat) (disk' : Disk) (ip' : Dinode) : Prop where
  mapped : ∀ k, off ≤ k → k < off + n → slot disk' ip' (.data (k / BSIZE)) ≠ 0
  written : ∀ k, off ≤ k → k < off + n → fileByte disk' ip' k = src (k - off)
  kept : ∀ k, slot disk ip (.data (k / BSIZE)) ≠ 0 → ¬ (off ≤ k ∧ k < off + n) →
    fileByte disk' ip' k = fileByte disk ip k

theorem writeRound_spec (h : Owned sb disk ino []) (hlive : inum < sb.ninodes ∧ (ino inum).type ≠ 0)
    (hfits : (ino inum).Fits) (hb : bmap sb disk (ino inum) (off / BSIZE) = .ok (disk1, ip1, b)) {m : Nat}
    (hm : off % BSIZE + m ≤ BSIZE) (hdisk2 : disk2 = Function.update disk1 b (copy (disk1 b) (off % BSIZE) m src))
    : Writes sb inum disk ino disk2 ip1 ∧ Wrote disk (ino inum) src off m disk2 ip1 := by
  obtain ⟨hgrow, hslot, hne⟩ := bmap_spec h hlive hfits hb
  have hself : Function.update ino inum ip1 inum = ip1 := Function.update_self _ _ _
  have hslot' : slot disk1 (Function.update ino inum ip1 inum) (.data (off / BSIZE)) = b := by
    rw [hself]
    exact hslot
  have hstore := store_spec hgrow.owned hgrow.live' (by rw [hself]; exact hgrow.fits) hslot' hne
    (copy (disk1 b) (off % BSIZE) m src)
  rw [hself, ← hdisk2] at hstore
  obtain ⟨hwrites, hslots, hbytes⟩ := hstore
  have hblock : ∀ k, off ≤ k → k < off + m → k / BSIZE = off / BSIZE ∧ k % BSIZE = off % BSIZE + (k - off) := by
    intro k hlo hhi
    unfold BSIZE at *
    omega
  refine ⟨hgrow.toWrites.trans hwrites, ?_, ?_, ?_⟩
  . intro k hlo hhi
    rw [(hblock k hlo hhi).1, hslots, hslot]
    exact hne
  . intro k hlo hhi
    obtain ⟨hdiv, hmod⟩ := hblock k hlo hhi
    rw [hbytes, if_pos hdiv, hmod]
    exact copy_of_mem (by omega)
  . intro k hk hout
    rw [hbytes, ← hgrow.fileByte_eq hk]
    split
    . next hdiv =>
      have hcopy : copy (disk1 b) (off % BSIZE) m src (k % BSIZE) = disk1 b (k % BSIZE) := by
        apply copy_of_notMem
        unfold BSIZE at *
        omega
      rw [hcopy, fileByte, hdiv, hslot]
    . rfl

theorem writeLoop_spec (h : Owned sb disk ino []) (hlive : inum < sb.ninodes ∧ (ino inum).type ≠ 0)
    (hfits : (ino inum).Fits) (hw : writeLoop sb disk (ino inum) src off n = .ok (disk', ip'))
    : Writes sb inum disk ino disk' ip' ∧ Wrote disk (ino inum) src off n disk' ip' := by
  induction n using Nat.strong_induction_on generalizing disk ino off src with
  | h n ih =>
    rw [writeLoop] at hw
    split at hw
    . next hn =>
      cases hw
      subst hn
      refine ⟨(Grows.refl h hlive hfits).toWrites, ?_, ?_, ?_⟩
      . intro k hlo hhi
        omega
      . intro k hlo hhi
        omega
      . exact fun _ _ _ => rfl
    . next hn =>
      obtain ⟨⟨disk1, ip1, addr⟩, hb, hw⟩ := bind_eq_ok hw
      have hmod := Nat.mod_lt off (show BSIZE > 0 by decide)
      obtain ⟨m, hm⟩ : ∃ m, m = min n (BSIZE - off % BSIZE) := ⟨_, rfl⟩
      dsimp only at hw
      rw [← hm] at hw
      obtain ⟨disk2, hdisk2⟩ : ∃ disk2, disk2 = Function.update disk1 addr (copy (disk1 addr) (off % BSIZE) m src) :=
        ⟨_, rfl⟩
      rw [← hdisk2] at hw
      obtain ⟨hwrites, hwrote⟩ := writeRound_spec h hlive hfits hb (by omega) hdisk2
      have hself : Function.update ino inum ip1 inum = ip1 := Function.update_self _ _ _
      have hrest := ih (n - m) (by omega) hwrites.owned hwrites.live' (by rw [hself]; exact hwrites.fits)
        (by rw [hself]; exact hw)
      rw [hself] at hrest
      obtain ⟨hwrites', hwrote'⟩ := hrest
      refine ⟨hwrites.trans hwrites', ?_, ?_, ?_⟩
      . intro k hlo hhi
        by_cases hk : k < off + m
        . have hmapped := hwrote.mapped k hlo hk
          have := hwrites'.keep (.data (k / BSIZE))
          rw [hself] at this
          rw [this hmapped]
          exact hmapped
        . exact hwrote'.mapped k (by omega) (by omega)
      . intro k hlo hhi
        by_cases hk : k < off + m
        . rw [hwrote'.kept k (hwrote.mapped k hlo hk) (by omega)]
          exact hwrote.written k hlo hk
        . rw [hwrote'.written k (by omega) (by omega)]
          congr 1
          omega
      . intro k hk hout
        have hkeep := hwrites.keep _ hk
        rw [hwrote'.kept k (by rw [hkeep]; exact hk) (by omega)]
        exact hwrote.kept k hk (by omega)

theorem writeRound_data {blk : Block} (h : Owned sb disk ino []) (hlive : inum < sb.ninodes ∧ (ino inum).type ≠ 0)
    (hfits : (ino inum).Fits) (hb : bmap sb disk (ino inum) bn = .ok (disk1, ip1, b))
    (hdisk2 : disk2 = Function.update disk1 b blk) (hk : k ≠ bn)
    : slot disk2 ip1 (.data k) = slot disk (ino inum) (.data k) := by
  obtain ⟨hgrow, hslot, hne⟩ := bmap_spec h hlive hfits hb
  have hself : Function.update ino inum ip1 inum = ip1 := Function.update_self _ _ _
  have hstore := store_spec hgrow.owned hgrow.live' (by rw [hself]; exact hgrow.fits) (by rw [hself]; exact hslot) hne blk
  rw [hself, ← hdisk2] at hstore
  rw [hstore.2.1, bmap_data h hlive hfits hb hk]

theorem writeLoop_data (h : Owned sb disk ino []) (hlive : inum < sb.ninodes ∧ (ino inum).type ≠ 0)
    (hfits : (ino inum).Fits) (hw : writeLoop sb disk (ino inum) src off n = .ok (disk', ip')) (hk : off + n ≤ k * BSIZE)
    : slot disk' ip' (.data k) = slot disk (ino inum) (.data k) := by
  induction n using Nat.strong_induction_on generalizing disk ino off src with
  | h n ih =>
    rw [writeLoop] at hw
    split at hw
    . cases hw
      rfl
    . next hn =>
      obtain ⟨⟨disk1, ip1, addr⟩, hb, hw⟩ := bind_eq_ok hw
      have hmod := Nat.mod_lt off (show BSIZE > 0 by decide)
      obtain ⟨m, hm⟩ : ∃ m, m = min n (BSIZE - off % BSIZE) := ⟨_, rfl⟩
      dsimp only at hw
      rw [← hm] at hw
      obtain ⟨disk2, hdisk2⟩ : ∃ disk2, disk2 = Function.update disk1 addr (copy (disk1 addr) (off % BSIZE) m src) :=
        ⟨_, rfl⟩
      rw [← hdisk2] at hw
      obtain ⟨hwrites, -⟩ := writeRound_spec h hlive hfits hb (by omega) hdisk2
      have hself : Function.update ino inum ip1 inum = ip1 := Function.update_self _ _ _
      have hrest := ih (n - m) (by omega) hwrites.owned hwrites.live' (by rw [hself]; exact hwrites.fits)
        (by rw [hself]; exact hw) (by omega)
      rw [hself] at hrest
      rw [hrest]
      apply writeRound_data h hlive hfits hb hdisk2
      unfold BSIZE at *
      omega

-- Over blocks that are there, the loop returns and leaves the inode alone.
theorem writeLoop_of_mapped (h : Owned sb disk ino []) (hlive : inum < sb.ninodes ∧ (ino inum).type ≠ 0)
    (hfits : (ino inum).Fits) (hmax : off + n ≤ MAXFILE * BSIZE)
    (hmap : ∀ k, off ≤ k → k < off + n → slot disk (ino inum) (.data (k / BSIZE)) ≠ 0)
    : ∃ disk', writeLoop sb disk (ino inum) src off n = .ok (disk', ino inum) := by
  induction n using Nat.strong_induction_on generalizing disk ino off src with
  | h n ih =>
    rw [writeLoop]
    split
    . exact ⟨disk, rfl⟩
    . next hn =>
      have hmod := Nat.mod_lt off (show BSIZE > 0 by decide)
      have hbn : off / BSIZE < MAXFILE := by
        unfold MAXFILE NDIRECT NINDIRECT BSIZE at *
        omega
      have hb := bmap_of_mapped sb hbn (hmap off (le_refl _) (by omega))
      rw [hb]
      obtain ⟨m, hm⟩ : ∃ m, m = min n (BSIZE - off % BSIZE) := ⟨_, rfl⟩
      dsimp only [bind, Except.bind]
      rw [← hm]
      have hround : Writes sb inum disk ino (Function.update disk _ (copy (disk _) (off % BSIZE) m src)) (ino inum) :=
        (writeRound_spec h hlive hfits hb (by omega) rfl).1
      have howned := hround.owned
      rw [Function.update_eq_self] at howned
      apply ih (n - m) (by omega) howned hlive hfits (by omega)
      intro k hlo hhi
      have hk := hmap k (by omega) (by omega)
      rw [hround.keep _ hk]
      exact hk

theorem writeLoop_error {msg : String} (hmax : off + n ≤ MAXFILE * BSIZE)
    (hw : writeLoop sb disk ip src off n = .error msg)
    : msg = "balloc: out of blocks" := by
  induction n using Nat.strong_induction_on generalizing disk ip off src with
  | h n ih =>
    rw [writeLoop] at hw
    split at hw
    . cases hw
    . next hn =>
      have hmod := Nat.mod_lt off (show BSIZE > 0 by decide)
      have hbn : off / BSIZE < MAXFILE := by
        unfold MAXFILE NDIRECT NINDIRECT BSIZE at *
        omega
      obtain hw | ⟨_, _, hw⟩ := bind_eq_error hw
      . exact bmap_error hbn hw
      . exact ih _ (by omega) (by omega) hw

theorem readLoop_spec (hmax : off + n ≤ MAXFILE * BSIZE)
    (hmap : ∀ k, off ≤ k → k < off + n → slot disk ip (.data (k / BSIZE)) ≠ 0)
    : readLoop sb disk ip off n = .ok (disk, ip, (List.range n).map fun k => fileByte disk ip (off + k)) := by
  induction n using Nat.strong_induction_on generalizing off with
  | h n ih =>
    rw [readLoop]
    split
    . next hn =>
      subst hn
      rfl
    . next hn =>
      have hmod := Nat.mod_lt off (show BSIZE > 0 by decide)
      have hbn : off / BSIZE < MAXFILE := by
        unfold MAXFILE NDIRECT NINDIRECT BSIZE at *
        omega
      rw [bmap_of_mapped sb hbn (hmap off (le_refl _) (by omega))]
      obtain ⟨m, hm⟩ : ∃ m, m = min n (BSIZE - off % BSIZE) := ⟨_, rfl⟩
      dsimp only [bind, Except.bind]
      rw [← hm, ih (n - m) (by omega) (by omega) (fun k hlo hhi => hmap k (by omega) (by omega))]
      dsimp only [pure, Except.pure]
      have hsplit : n = m + (n - m) := by omega
      congr 3
      conv_rhs => rw [hsplit, List.range_add, List.map_append, List.map_map]
      congr 1
      . apply List.map_congr_left
        intro k hk
        have hkm : k < m := List.mem_range.mp hk
        have h1 : (off + k) / BSIZE = off / BSIZE := by
          unfold BSIZE at *
          omega
        have h2 : (off + k) % BSIZE = off % BSIZE + k := by
          unfold BSIZE at *
          omega
        rw [fileByte, h1, h2]
      . apply List.map_congr_left
        intro k _
        simp only [Function.comp_apply, add_assoc]

end Xv6.Fs
