import Xv6.Fs.Trunc
import Xv6.Mkfs.Impl

/-!
`iappend` goes in lockstep with the kernel's `writei` on the image with the bitmap that `balloc` is going to write.
-/

namespace Xv6.Mkfs

open Bytes Fs Outcome

-- The layout with all the inodes that the inode blocks have room for.
def room : Superblock where
  size := FSSIZE
  ninodes := IPB * ninodeblocks
  inodestart := sb.inodestart
  bmapstart := sb.bmapstart
  inodes_lt := by
    intro i hi
    unfold ninodeblocks NINODES IPB BSIZE DINODE at hi
    unfold sb ninodeblocks NINODES IPB BSIZE DINODE
    dsimp only
    omega
  meta_le := by decide
  size_le := sb.size_le

theorem room_nmeta : room.nmeta = nmeta := rfl

theorem room_size : room.size = FSSIZE := rfl

def mark (image : Disk) (fb : Nat) : Disk :=
  Function.update image room.bmapstart (bitmap fb)

/-- The blocks from `fb` on are free, and still zero. -/
structure Free (image : Disk) (fb : Nat) : Prop where
  lo : nmeta ≤ fb
  hi : fb ≤ FSSIZE
  zero : ∀ b, fb ≤ b → b < FSSIZE → image b = fun _ => 0

variable {image image' : Disk} {fb fb' x k bn off n inum : Nat} {ino : Nat → Dinode} {din din' : Dinode} {p : Memory}

theorem sector_eq (hx : x ≤ FSSIZE) : sector x = x := by
  unfold FSSIZE at hx
  unfold sector BSIZE
  omega

theorem rsect_eq (image : Disk) (hx : x < FSSIZE) : rsect image x = .ok (image x) := by
  rw [rsect, sector_eq (Nat.le_of_lt hx), if_pos hx]

theorem rsect_end (image : Disk) : rsect image FSSIZE = .error "read" := by
  rw [rsect, sector_eq le_rfl, if_neg (Nat.lt_irrefl _)]

theorem wsect_eq (image : Disk) (buf : Block) (hx : x < FSSIZE) : wsect image x buf = Function.update image x buf := by
  rw [wsect, sector_eq (Nat.le_of_lt hx)]

theorem bitmap_succ (used : Nat) : bitmap (used + 1) = setBit (bitmap used) used := by
  unfold bitmap
  rw [List.range_succ, List.foldl_append]
  rfl

theorem testBit_bitmap (used k : Nat) : testBit (bitmap used) k = decide (k < used) := by
  induction used with
  | zero => simp [bitmap, testBit]
  | succ used ih =>
    rw [bitmap_succ, testBit_setBit, ih, Bool.eq_iff_iff]
    simp only [Bool.or_eq_true, decide_eq_true_eq]
    omega

theorem BBLOCK_eq (hx : x < BPB) : BBLOCK room x = room.bmapstart := by
  unfold BBLOCK
  rw [Nat.div_eq_of_lt hx, Nat.zero_add]

theorem FSSIZE_lt : FSSIZE < BPB := by
  decide

theorem bit_mark (hx : x < FSSIZE) : bit room (mark image fb) x = decide (x < fb) := by
  have := FSSIZE_lt
  unfold bit
  rw [BBLOCK_eq (by omega), Nat.mod_eq_of_lt (by omega), mark, Function.update_self, testBit_bitmap]

theorem mark_of_ne (hx : x ≠ room.bmapstart) : mark image fb x = image x :=
  Function.update_of_ne hx _ _

theorem mark_update (buf : Block) (hx : x ≠ room.bmapstart)
    : Function.update (mark image fb) x buf = mark (Function.update image x buf) fb :=
  (Function.update_comm hx _ _ _).symm

theorem balloc_mark (hfree : Free image fb) (hfb : fb < FSSIZE)
    : Fs.balloc room (mark image fb) = .ok (mark image (fb + 1), fb) := by
  have hfind : (List.range room.size).find? (fun b => bit room (mark image fb) b = false) = some fb := by
    rw [List.find?_range_eq_some, room_size, List.mem_range]
    refine ⟨?_, hfb, ?_⟩
    . simp [bit_mark hfb]
    . intro j hj
      simp [bit_mark (Nat.lt_trans hj hfb), hj]
  have hne : fb ≠ room.bmapstart := by
    have := hfree.lo
    have := bmapstart_lt room
    rw [room_nmeta] at this
    omega
  unfold Fs.balloc
  rw [hfind]
  dsimp only
  have := FSSIZE_lt
  rw [BBLOCK_eq (by omega), Nat.mod_eq_of_lt (by omega)]
  have hmark : Function.update (mark image fb) room.bmapstart (setBit (mark image fb room.bmapstart) fb) =
      mark image (fb + 1) := by
    unfold mark
    rw [Function.update_self, Function.update_idem, bitmap_succ]
  rw [hmark, bzero, mark_update _ hne, ← hfree.zero fb le_rfl hfb, Function.update_eq_self]

theorem lt_of_used (hx : x < FSSIZE) (hused : bit room (mark image fb) x = true) : x < fb := by
  rw [bit_mark hx] at hused
  exact of_decide_eq_true hused

theorem Owned.slot_range (h : Owned room (mark image fb) ino []) (hlive : inum < room.ninodes ∧ (ino inum).type ≠ 0)
    {s : Slot} (hs : slot (mark image fb) (ino inum) s ≠ 0)
    : nmeta ≤ slot (mark image fb) (ino inum) s ∧ slot (mark image fb) (ino inum) s < FSSIZE ∧
      slot (mark image fb) (ino inum) s < fb := by
  have hown : own room (mark image fb) ino (inum, s) = slot (mark image fb) (ino inum) s := own_live hlive.1 hlive.2 s
  have hne : own room (mark image fb) ino (inum, s) ≠ 0 := by rwa [hown]
  have hrange := h.ledger.range (inum, s) hne
  have hused := h.used hne
  rw [hown] at hrange hused
  rw [room_nmeta, room_size] at hrange
  exact ⟨hrange.1, hrange.2, lt_of_used hrange.2 hused⟩

theorem Free.succ (hfree : Free image fb) (hfb : fb < FSSIZE) : Free image (fb + 1) where
  lo := Nat.le_succ_of_le hfree.lo
  hi := hfb
  zero b hlo hhi := hfree.zero b (by omega) hhi

theorem Free.update (hfree : Free image fb) (buf : Block) (hx : x < fb) : Free (Function.update image x buf) fb where
  lo := hfree.lo
  hi := hfree.hi
  zero b hlo hhi := by
    rw [Function.update_of_ne (by omega)]
    exact hfree.zero b hlo hhi

/-- `mkfs` gets on with the blocks up to `fb'`, or it runs out of them within the next `k`. -/
theorem appendEntry_sim {j : Nat} (h : Owned room (mark image fb) ino [])
    (hlive : inum < room.ninodes ∧ (ino inum).type ≠ 0) (htable : (ino inum).addrs NDIRECT ≠ 0)
    (hfree : Free image fb)
    : (∃ image' fb' x, appendEntry image fb ((ino inum).addrs NDIRECT) j = .ok (image', fb', x) ∧
        bmapEntry room (mark image fb) ((ino inum).addrs NDIRECT) j = .ok (mark image' fb', x) ∧
        fb ≤ fb' ∧ fb' ≤ fb + 1 ∧ Free image' fb') ∨
      fb = FSSIZE ∧ ∃ image' fb', appendEntry image fb ((ino inum).addrs NDIRECT) j = .ok (image', fb', FSSIZE) := by
  have hrange := Owned.slot_range h hlive (s := .table) htable
  simp only [slot] at hrange
  obtain ⟨hlo, hhi, hlt⟩ := hrange
  have hmeta := bmapstart_lt room
  rw [room_nmeta] at hmeta
  have hne : (ino inum).addrs NDIRECT ≠ room.bmapstart := by omega
  unfold appendEntry bmapEntry
  rw [rsect_eq image hhi, mark_of_ne hne, ok_bind]
  split
  . rcases Nat.lt_or_ge fb FSSIZE with hfb | hfb
    . left
      refine ⟨_, _, _, rfl, ?_, by omega, le_rfl, ?_⟩
      . rw [balloc_mark hfree hfb, ok_bind, wsect_eq _ _ hhi]
        dsimp only
        rw [mark_of_ne hne, mark_update _ hne]
        rfl
      . rw [wsect_eq _ _ hhi]
        exact (hfree.succ hfb).update _ (by omega)
    . right
      have heq := Nat.le_antisymm hfree.hi hfb
      subst heq
      exact ⟨rfl, _, _, rfl⟩
  . left
    exact ⟨_, _, _, rfl, rfl, le_rfl, Nat.le_succ _, hfree⟩

theorem appendTable_sim (ip : Dinode) (hfree : Free image fb) (hfb : fb < FSSIZE ∨ ip.addrs NDIRECT ≠ 0)
    : bmapTable room (mark image fb) ip = .ok (mark image (appendTable fb ip).1, (appendTable fb ip).2) ∧
      fb ≤ (appendTable fb ip).1 ∧ (appendTable fb ip).1 ≤ fb + 1 ∧ Free image (appendTable fb ip).1 := by
  unfold bmapTable appendTable
  split
  . next hzero =>
    have hfb : fb < FSSIZE := by
      rcases hfb with hfb | hne
      . exact hfb
      . exact absurd hzero hne
    rw [balloc_mark hfree hfb]
    exact ⟨rfl, Nat.le_succ _, le_rfl, hfree.succ hfb⟩
  . exact ⟨rfl, le_rfl, Nat.le_succ _, hfree⟩

theorem appendBlock_sim (h : Owned room (mark image fb) ino []) (hlive : inum < room.ninodes ∧ (ino inum).type ≠ 0)
    (hfits : (ino inum).Fits) (hfree : Free image fb) (hbn : bn < MAXFILE)
    : (∃ image' fb' din' x, appendBlock image fb (ino inum) bn = .ok (image', fb', din', x) ∧
        bmap room (mark image fb) (ino inum) bn = .ok (mark image' fb', din', x) ∧
        fb ≤ fb' ∧ fb' ≤ fb + 2 ∧ Free image' fb') ∨
      FSSIZE < fb + 2 ∧ ∀ r, appendBlock image fb (ino inum) bn = .ok r → r.2.2.2 = FSSIZE := by
  unfold appendBlock bmap
  split
  . next hdirect =>
    split
    . rcases Nat.lt_or_ge fb FSSIZE with hfb | hfb
      . left
        refine ⟨_, _, _, _, rfl, ?_, Nat.le_succ _, Nat.le_succ _, hfree.succ hfb⟩
        rw [balloc_mark hfree hfb]
        rfl
      . right
        refine ⟨by omega, fun r hr => ?_⟩
        cases hr
        exact Nat.le_antisymm hfree.hi hfb
    . left
      exact ⟨_, _, _, _, rfl, rfl, le_rfl, Nat.le_add_right _ _, hfree⟩
  . next hdirect =>
    have hind : bn - NDIRECT < NINDIRECT := by
      unfold MAXFILE NDIRECT NINDIRECT at *
      omega
    rw [if_pos hind]
    by_cases hfull : fb = FSSIZE ∧ (ino inum).addrs NDIRECT = 0
    . right
      obtain ⟨rfl, hzero⟩ := hfull
      refine ⟨by omega, fun r hr => ?_⟩
      unfold appendTable at hr
      rw [if_pos hzero] at hr
      simp only [setAddr, Function.update_self, appendEntry, rsect_end] at hr
      cases hr
    . have hfb : fb < FSSIZE ∨ (ino inum).addrs NDIRECT ≠ 0 := by
        have := hfree.hi
        omega
      obtain ⟨htab, hle, hle', hfree'⟩ := appendTable_sim (ino inum) hfree hfb
      generalize hres : appendTable fb (ino inum) = res at htab hle hle' hfree' ⊢
      obtain ⟨fb1, din1⟩ := res
      dsimp only at htab hle hle' hfree' ⊢
      obtain ⟨hgrow, htable⟩ := bmapTable_spec h hlive hfits htab
      have hself : Function.update ino inum din1 inum = din1 := Function.update_self _ _ _
      have hsim := appendEntry_sim (j := bn - NDIRECT) hgrow.owned hgrow.live' (by rwa [hself]) hfree'
      rw [hself] at hsim
      rcases hsim with ⟨image2, fb2, x, hentry, hbmap, hle2, hle2', hfree2⟩ | ⟨hend, image2, fb2, hentry⟩
      . left
        refine ⟨image2, fb2, din1, x, ?_, ?_, by omega, by omega, hfree2⟩
        . rw [hentry]
          rfl
        . rw [htab, ok_bind]
          dsimp only
          rw [hbmap]
          rfl
      . right
        refine ⟨by omega, fun r hr => ?_⟩
        rw [hentry] at hr
        cases hr
        rfl

-- The number of blocks that an append touches.
def rounds (off n : Nat) : Nat :=
  if n = 0 then 0 else (off % BSIZE + n - 1) / BSIZE + 1

theorem rounds_step {m : Nat} (hn : n ≠ 0) (hm : m = min n (BSIZE - off % BSIZE))
    : rounds (off + m) (n - m) + 1 = rounds off n := by
  have hmod := Nat.mod_lt off (show BSIZE > 0 by decide)
  unfold rounds
  rw [if_neg hn]
  unfold BSIZE at *
  split
  . omega
  . omega

theorem appendLoop_sim (h : Owned room (mark image fb) ino []) (hlive : inum < room.ninodes ∧ (ino inum).type ≠ 0)
    (hfits : (ino inum).Fits) (hfree : Free image fb) (hmax : off + n ≤ MAXFILE * BSIZE)
    : (∃ image' fb' din', appendLoop image fb (ino inum) p off n = .ok (image', fb', din', off + n) ∧
        writeLoop room (mark image fb) (ino inum) p off n = .ok (mark image' fb', din') ∧
        fb ≤ fb' ∧ fb' ≤ fb + 2 * rounds off n ∧ Free image' fb') ∨
      FSSIZE < fb + 2 * rounds off n ∧ ∃ msg, appendLoop image fb (ino inum) p off n = .error msg := by
  induction n using Nat.strong_induction_on generalizing image fb ino off p with
  | h n ih =>
    rw [appendLoop, writeLoop]
    split
    . next hn =>
      left
      subst hn
      exact ⟨image, fb, ino inum, rfl, rfl, le_rfl, Nat.le_add_right _ _, hfree⟩
    . next hn =>
      have hmod := Nat.mod_lt off (show BSIZE > 0 by decide)
      have hbn : off / BSIZE < MAXFILE := by
        unfold MAXFILE BSIZE at *
        omega
      have hm : min n ((off / BSIZE + 1) * BSIZE - off) = min n (BSIZE - off % BSIZE) := by
        unfold BSIZE
        omega
      have ho : off - off / BSIZE * BSIZE = off % BSIZE := by
        unfold BSIZE
        omega
      rw [if_pos hbn]
      dsimp only
      rw [hm, ho]
      have hround := rounds_step hn (rfl : min n (BSIZE - off % BSIZE) = _)
      have hpos : 0 < min n (BSIZE - off % BSIZE) := by omega
      have hle : min n (BSIZE - off % BSIZE) ≤ n := Nat.min_le_left _ _
      have hin : off % BSIZE + min n (BSIZE - off % BSIZE) ≤ BSIZE := by omega
      generalize min n (BSIZE - off % BSIZE) = m at hround hpos hle hin ⊢
      rcases appendBlock_sim h hlive hfits hfree hbn with
        ⟨image1, fb1, din1, x, hblock, hbmap, hfb, hfb', hfree1⟩ | ⟨hend, hblock⟩
      . obtain ⟨hgrow, hslot, hne⟩ := bmap_spec h hlive hfits hbmap
        have hself : Function.update ino inum din1 inum = din1 := Function.update_self _ _ _
        have hrange := Owned.slot_range hgrow.owned hgrow.live' (s := .data (off / BSIZE)) (by rw [hself, hslot]; exact hne)
        rw [hself, hslot] at hrange
        obtain ⟨hxlo, hxhi, hxlt⟩ := hrange
        have hmeta := bmapstart_lt room
        rw [room_nmeta] at hmeta
        have hxne : x ≠ room.bmapstart := by omega
        rw [hblock, hbmap, ok_bind, ok_bind]
        dsimp only
        rw [rsect_eq image1 hxhi, ok_bind, wsect_eq _ _ hxhi, mark_of_ne hxne, mark_update _ hxne]
        have hdisk2 : mark (Function.update image1 x (copy (image1 x) (off % BSIZE) m p)) fb1 =
            Function.update (mark image1 fb1) x (copy (mark image1 fb1 x) (off % BSIZE) m p) := by
          rw [mark_of_ne hxne, mark_update _ hxne]
        obtain ⟨hwrites, -⟩ := writeRound_spec h hlive hfits hbmap hin hdisk2
        have hrest := @ih (n - m) (by omega) _ _ (off + m) _ (fun k => p (m + k)) hwrites.owned hwrites.live'
          (by rw [hself]; exact hwrites.fits) (hfree1.update _ hxlt) (by omega)
        rw [hself] at hrest
        have hoff : off + m + (n - m) = off + n := by omega
        rw [hoff] at hrest
        rcases hrest with ⟨image2, fb2, din2, happend, hwrite, hfb2, hfb2', hfree2⟩ | ⟨hend, msg, happend⟩
        . left
          exact ⟨image2, fb2, din2, happend, hwrite, by omega, by omega, hfree2⟩
        . right
          exact ⟨by omega, msg, happend⟩
      . right
        refine ⟨by omega, ?_⟩
        cases hres : appendBlock image fb (ino inum) (off / BSIZE) with
        | error msg => exact ⟨msg, rfl⟩
        | ok r =>
          obtain ⟨image1, fb1, din1, x⟩ := r
          have hx : x = FSSIZE := hblock _ hres
          rw [ok_bind]
          dsimp only
          rw [hx, rsect_end]
          exact ⟨_, rfl⟩

theorem appendLoop_max {r : Disk × Nat × Dinode × Nat} (h : appendLoop image fb din p off n = .ok r)
    : n = 0 ∨ off + n ≤ MAXFILE * BSIZE := by
  induction n using Nat.strong_induction_on generalizing image fb din off p with
  | h n ih =>
    rw [appendLoop] at h
    split at h
    . next hn => exact .inl hn
    . next hn =>
      split at h
      . next hbn =>
        obtain ⟨⟨image1, fb1, din1, x⟩, -, h⟩ := bind_eq_ok h
        obtain ⟨buf, -, h⟩ := bind_eq_ok h
        dsimp only at h
        have hbn' : off / BSIZE * BSIZE + BSIZE ≤ MAXFILE * BSIZE := by
          unfold MAXFILE BSIZE at *
          omega
        right
        rcases ih _ (by unfold BSIZE; omega) h with hdone | hrest
        . unfold BSIZE at *
          omega
        . omega
      . cases h

theorem appendBlock_mono {r : Disk × Nat × Dinode × Nat} (h : appendBlock image fb din bn = .ok r) : fb ≤ r.2.1 := by
  have htable : fb ≤ (appendTable fb din).1 := by
    unfold appendTable
    split
    . exact Nat.le_succ _
    . exact le_rfl
  unfold appendBlock at h
  split at h
  . split at h <;> cases h
    . exact Nat.le_succ _
    . exact le_rfl
  . obtain ⟨⟨image1, fb1, x⟩, hentry, h⟩ := bind_eq_ok h
    cases h
    unfold appendEntry at hentry
    obtain ⟨indirect, -, hentry⟩ := bind_eq_ok hentry
    split at hentry <;> cases hentry
    . exact Nat.le_succ_of_le htable
    . exact htable

theorem appendLoop_mono {r : Disk × Nat × Dinode × Nat} (h : appendLoop image fb din p off n = .ok r)
    : fb ≤ r.2.1 := by
  induction n using Nat.strong_induction_on generalizing image fb din off p with
  | h n ih =>
    rw [appendLoop] at h
    split at h
    . cases h
      exact le_rfl
    . split at h
      . obtain ⟨⟨image1, fb1, din1, x⟩, hblock, h⟩ := bind_eq_ok h
        obtain ⟨buf, -, h⟩ := bind_eq_ok h
        dsimp only at h
        have hrest := ih _ (by unfold BSIZE; omega) h
        have hfb1 := appendBlock_mono hblock
        exact le_trans hfb1 hrest
      . cases h

end Xv6.Mkfs
