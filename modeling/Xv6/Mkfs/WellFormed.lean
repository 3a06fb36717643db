import Mathlib.Data.Finset.Card
import Mathlib.Order.Interval.Finset.Nat
import Xv6.Mkfs.Image

/-!
When the image is well formed. `mkfs` rounds the size of the root directory up past its last block when that block is
full, and it hands out inodes behind the last inode block, which `balloc` then overwrites.
-/

namespace Xv6.Mkfs

open Bytes Fs Outcome

-- The block `bn` of the inode `i` lies below the size of the inode.
def Below (t : State) (i bn : Nat) : Prop :=
  0 < i ∧ i < t.freeinode ∧ bn * BSIZE < (dinode sb t.image i).size

def blockno (t : State) (i bn : Nat) : Nat :=
  slot t.image (dinode sb t.image i) (.data bn)

structure WellFormed (t : State) : Prop where
  mapped : ∀ i bn, Below t i bn → blockno t i bn ≠ 0
  distinct : ∀ i bn j bm, Below t i bn → Below t j bm → blockno t i bn = blockno t j bm → i = j ∧ bn = bm
  range : ∀ i bn, Below t i bn → nmeta ≤ blockno t i bn ∧ blockno t i bn < FSSIZE
  bitmap : ∀ b < FSSIZE, bit sb t.image b = true ↔ b < t.freeblock

variable {t t' : State} {c : Nat → List UInt8} {files : List File} {i bn : Nat}

-- What `fixroot` leaves.
def State.fixed (t : State) : State :=
  { t with image := iupdate room t.disk ROOTINO (rounded (dinode room t.disk ROOTINO)) }

theorem rounded_fits {ip : Dinode} (h : ip.Fits) : (rounded ip).Fits :=
  ⟨h.type, h.major, h.minor, h.nlink, Nat.mod_lt _ (by decide), h.addrs, h.rest⟩

theorem Laid.fixed_dinode (h : Laid t c) (i : Nat)
    : dinode sb t.fixed.image i = if i = ROOTINO then rounded (dinode room t.disk ROOTINO) else dinode room t.disk i := by
  have hsb : ∀ d, dinode sb d i = dinode room d i := fun _ => rfl
  rw [hsb]
  unfold State.fixed
  split
  . next heq =>
    rw [heq, dinode_iupdate (rounded_fits (h.wf.fits (by decide)))]
  . next hne => rw [dinode_iupdate_of_ne hne]

theorem Laid.live (h : Laid t c) (hpos : 0 < i) (hi : i < t.freeinode)
    : i < room.ninodes ∧ (dinode room t.disk i).type ≠ 0 := by
  rw [h.kind i hpos hi]
  exact ⟨Nat.lt_of_lt_of_le hi h.le, kind_ne_zero i⟩

theorem Laid.fixed_data (h : Laid t c) (hpos : 0 < i) (hi : i < t.freeinode) (s : Slot)
    : slot t.fixed.image (dinode sb t.fixed.image i) s = slot t.disk (dinode room t.disk i) s := by
  have hlive := h.live hpos hi
  have haddrs : (dinode sb t.fixed.image i).addrs = (dinode room t.disk i).addrs := by
    rw [h.fixed_dinode]
    split
    . next heq => rw [heq, rounded]
    . rfl
  have hslot : ∀ d, slot d (dinode sb t.fixed.image i) s = slot d (dinode room t.disk i) s := by
    intro d
    cases s <;> simp only [slot, haddrs]
  rw [hslot]
  apply slot_of_own hlive.1 hlive.2
  intro s' hs'
  have hle : room.nmeta ≤ own room t.disk (dinode room t.disk) (i, s') := h.wf.owned.le hs'
  have := bmapstart_lt room
  exact iupdate_of_le (by decide) (by omega)

theorem fixed_bit (t : State) {b : Nat} (hb : b < FSSIZE) : bit sb t.fixed.image b = decide (b < t.freeblock) := by
  have hmark : bit room t.disk b = decide (b < t.freeblock) := bit_mark hb
  have hroot : ROOTINO < room.ninodes := by decide
  have hdisk : iupdate room t.disk ROOTINO (rounded (dinode room t.disk ROOTINO)) (BBLOCK room b) =
      t.disk (BBLOCK room b) := iupdate_of_le hroot (le_BBLOCK room b)
  rw [← hmark]
  exact bit_congr hdisk

theorem dirents_length {es : List Dirent} (hes : ∀ de ∈ es, de.name.length = DIRSIZ)
    : (es.flatMap Dirent.toBytes).length = DIRENT * es.length := by
  induction es with
  | nil => rfl
  | cons de es ih =>
    rw [List.flatMap_cons, List.length_append, Dirent.length_toBytes (hes de List.mem_cons_self),
      ih fun de' hmem => hes de' (List.mem_cons_of_mem de hmem), List.length_cons, Nat.mul_succ, Nat.add_comm]

theorem entries_name {files : List File} {de : Dirent} (hde : de ∈ entries files) : de.name.length = DIRSIZ := by
  unfold entries at hde
  simp only [List.mem_cons, List.mem_mapIdx] at hde
  rcases hde with rfl | rfl | ⟨k, hk, rfl⟩ <;> exact length_strncpy _ _

theorem root_length (files : List File) : (contents files ROOTINO).length = DIRENT * (files.length + 2) := by
  rw [contents, if_pos rfl, dirents_length (fun de hde => entries_name hde), entries_length]

theorem Laid.root_size (h : Laid t (contents files)) (hfi : t.freeinode = files.length + 2)
    : (dinode room t.disk ROOTINO).size = DIRENT * (files.length + 2) := by
  rw [h.size_eq (by decide) (by unfold ROOTINO; omega), root_length]

-- Below the size of an inode, before the size of the root is rounded.
theorem Laid.mapped (h : Laid t c) (hpos : 0 < i) (hi : i < t.freeinode)
    (hbn : bn * BSIZE < (dinode room t.disk i).size)
    : slot t.disk (dinode room t.disk i) (.data bn) ≠ 0 :=
  h.wf.mapped i (h.live hpos hi).1 (h.live hpos hi).2 bn hbn

theorem fixed_wellFormed (h : Laid t (contents files)) (hfi : t.freeinode = files.length + 2)
    (hfull : (files.length + 2) % 32 ≠ 0)
    : WellFormed t.fixed := by
  have hmapped : ∀ i bn, Below t.fixed i bn → slot t.disk (dinode room t.disk i) (.data bn) ≠ 0 := by
    intro i bn hbelow
    obtain ⟨hpos, hi, hbn⟩ := hbelow
    apply h.mapped hpos hi
    rw [h.fixed_dinode] at hbn
    split at hbn
    . next heq =>
      rw [heq, h.root_size hfi]
      simp only [rounded, h.root_size hfi] at hbn
      have hmod := Nat.mod_le ((DIRENT * (files.length + 2) / BSIZE + 1) * BSIZE) (2 ^ 32)
      unfold BSIZE DIRENT at *
      omega
    . exact hbn
  have hblock : ∀ i bn, Below t.fixed i bn → blockno t.fixed i bn = slot t.disk (dinode room t.disk i) (.data bn) :=
    fun i bn hbelow => h.fixed_data hbelow.1 hbelow.2.1 _
  constructor
  . intro i bn hbelow
    rw [hblock i bn hbelow]
    exact hmapped i bn hbelow
  . intro i bn j bm hi hj heq
    rw [hblock i bn hi, hblock j bm hj] at heq
    have hown : ∀ i bn, Below t.fixed i bn →
        own room t.disk (dinode room t.disk) (i, .data bn) = slot t.disk (dinode room t.disk i) (.data bn) := by
      intro i bn hbelow
      have hlive := h.live hbelow.1 hbelow.2.1
      exact own_live hlive.1 hlive.2 _
    have := h.wf.owned.ledger.inj (i, .data bn) (j, .data bm) (by rw [hown i bn hi]; exact hmapped i bn hi)
      (by rw [hown i bn hi, hown j bm hj, heq])
    simpa using this
  . intro i bn hbelow
    rw [hblock i bn hbelow]
    have hrange := Owned.slot_range h.wf.owned (h.live hbelow.1 hbelow.2.1) (hmapped i bn hbelow)
    exact ⟨hrange.1, hrange.2.1⟩
  . intro b hb
    rw [fixed_bit t hb, decide_eq_true_eq]
    rfl

-- A directory that fills its last block gets a size beyond it.
theorem fixed_full (h : Laid t (contents files)) (hfi : t.freeinode = files.length + 2)
    (hlen : files.length ≤ maxfiles) (hfull : (files.length + 2) % 32 = 0)
    : ¬ WellFormed t.fixed := by
  intro hwf
  have hmax : maxfiles = 206 := by decide
  have hroot : 0 < ROOTINO ∧ ROOTINO < t.freeinode := by
    unfold ROOTINO
    omega
  have hsize := h.root_size hfi
  apply hwf.mapped ROOTINO (DIRENT * (files.length + 2) / BSIZE)
  . refine ⟨hroot.1, hroot.2, ?_⟩
    rw [h.fixed_dinode, if_pos rfl]
    simp only [rounded, hsize]
    unfold BSIZE DIRENT
    omega
  . unfold blockno
    rw [h.fixed_data hroot.1 hroot.2]
    apply h.tight ROOTINO hroot.1 hroot.2
    rw [hsize]
    unfold BSIZE DIRENT
    omega

theorem addFile_mono {f : File} (hok : addFile t f = .ok t') : t.freeblock ≤ t'.freeblock ∧ t'.freeinode = t.freeinode + 1 := by
  have happend : ∀ {t t' : State} {inum : Nat} {p : List UInt8}, iappend t inum p = .ok t' →
      t.freeblock ≤ t'.freeblock ∧ t'.freeinode = t.freeinode := by
    intro t t' inum p h
    obtain ⟨din, -, h⟩ := bind_eq_ok h
    obtain ⟨r, hloop, h⟩ := bind_eq_ok h
    obtain ⟨image, -, h⟩ := bind_eq_ok h
    cases h
    exact ⟨appendLoop_mono hloop, rfl⟩
  have hchunks : ∀ {chunks : List (List UInt8)} {t t' : State} {inum : Nat},
      chunks.foldlM (fun t chunk => iappend t inum chunk) t = .ok t' →
      t.freeblock ≤ t'.freeblock ∧ t'.freeinode = t.freeinode := by
    intro chunks
    induction chunks with
    | nil =>
      intro t t' inum h
      cases h
      exact ⟨le_rfl, rfl⟩
    | cons chunk chunks ih =>
      intro t t' inum h
      obtain ⟨t1, h1, h⟩ := bind_eq_ok h
      have hstep := happend h1
      have hrest := ih h
      exact ⟨hstep.1.trans hrest.1, hrest.2.trans hstep.2⟩
  unfold addFile at hok
  split at hok
  . cases hok
  . obtain ⟨⟨t1, inum⟩, halloc, hok⟩ := bind_eq_ok hok
    obtain ⟨image, -, halloc⟩ := bind_eq_ok halloc
    cases halloc
    obtain ⟨t2, hdir, hok⟩ := bind_eq_ok hok
    have hdir := happend hdir
    have hrest := hchunks hok
    exact ⟨hdir.1.trans hrest.1, hrest.2.trans hdir.2⟩

theorem files_mono (hok : files.foldlM addFile t = .ok t')
    : t.freeblock ≤ t'.freeblock ∧ t'.freeinode = t.freeinode + files.length := by
  induction files generalizing t with
  | nil =>
    cases hok
    exact ⟨le_rfl, rfl⟩
  | cons f files ih =>
    obtain ⟨t1, hadd, hok⟩ := bind_eq_ok hok
    have hstep := addFile_mono hadd
    have hrest := ih hok
    rw [List.length_cons]
    omega

theorem Laid.freeblock_ge (h : Laid t (contents files)) (hfi : t.freeinode = files.length + 2)
    (hlen : files.length = maxfiles)
    : nmeta + 7 ≤ t.freeblock := by
  have hmax : maxfiles = 206 := by decide
  have hroot : 0 < ROOTINO ∧ ROOTINO < t.freeinode := by
    unfold ROOTINO
    omega
  have hlive := h.live hroot.1 hroot.2
  have hmapped : ∀ bn < 7, slot t.disk (dinode room t.disk ROOTINO) (.data bn) ≠ 0 := by
    intro bn hbn
    apply h.mapped hroot.1 hroot.2
    rw [h.root_size hfi]
    unfold BSIZE DIRENT
    omega
  have hcard : (Finset.range 7).card ≤ (Finset.Ico nmeta t.freeblock).card := by
    apply Finset.card_le_card_of_injOn fun bn => slot t.disk (dinode room t.disk ROOTINO) (.data bn)
    . intro bn hbn
      have hrange := Owned.slot_range h.wf.owned hlive (hmapped bn (Finset.mem_range.mp hbn))
      exact Finset.mem_Ico.mpr ⟨hrange.1, hrange.2.2⟩
    . intro bn hbn bm hbm heq
      have hown : ∀ s, own room t.disk (dinode room t.disk) (ROOTINO, s) = slot t.disk (dinode room t.disk ROOTINO) s :=
        own_live hlive.1 hlive.2
      have := h.wf.owned.ledger.inj (ROOTINO, .data bn) (ROOTINO, .data bm)
        (by rw [hown]; exact hmapped bn (Finset.mem_range.mp hbn)) (by rw [hown, hown]; exact heq)
      simpa using this
  rw [Finset.card_range, Nat.card_Ico] at hcard
  omega

theorem bitmap_byte {used j : Nat} (hj : 8 * j < used) : 1 ≤ (bitmap used j).toNat := by
  have hbit := testBit_bitmap used (8 * j)
  rw [testBit_eq, Nat.mul_div_cancel_left j (by decide), Nat.mul_mod_right, decide_eq_true hj] at hbit
  by_contra hlt
  have hzero : (bitmap used j).toNat = 0 := by omega
  rw [hzero] at hbit
  simp at hbit

theorem bitmap_byte_zero {used j : Nat} (hj : used ≤ 8 * j) : bitmap used j = 0 := by
  apply UInt8.toNat_inj.mp
  apply Nat.eq_of_testBit_eq
  intro k
  rw [UInt8.toNat_zero, Nat.zero_testBit]
  by_cases hk : k < 8
  . have hbit := testBit_bitmap used (8 * j + k)
    have hdiv : (8 * j + k) / 8 = j := by omega
    have hmod : (8 * j + k) % 8 = k := by omega
    rw [testBit_eq, hdiv, hmod] at hbit
    rw [hbit, decide_eq_false_iff_not]
    omega
  . apply Nat.testBit_lt_two_pow
    have := (bitmap used j).toNat_lt
    have : 2 ^ 8 ≤ 2 ^ k := Nat.pow_le_pow_right (by decide) (by omega)
    omega

theorem lost_inode (hi : t.image sb.bmapstart = bitmap t.freeblock) (hfi : IPB * ninodeblocks < t.freeinode)
    (hfb : nmeta + 7 ≤ t.freeblock)
    : ¬ WellFormed t := by
  intro hwf
  have hmeta : nmeta = 59 := by decide
  have hnum : IPB * ninodeblocks = 208 := by decide
  rw [hnum] at hfi
  have hinode : dinode sb t.image 208 = getDinode (bitmap t.freeblock) 0 := by
    have hblock : IBLOCK sb 208 = sb.bmapstart := by decide
    unfold dinode
    rw [hblock, hi]
    rfl
  have hsize : (dinode sb t.image 208).size = get32 (bitmap t.freeblock) 8 := by
    rw [hinode]
    rfl
  have haddr : (dinode sb t.image 208).addrs 0 = get32 (bitmap t.freeblock) 12 := by
    rw [hinode]
    rfl
  unfold get32 at hsize haddr
  have h8 : 1 ≤ (bitmap t.freeblock 8).toNat := bitmap_byte (by omega)
  by_cases hsmall : t.freeblock ≤ 96
  . apply hwf.mapped 208 0
    . refine ⟨by decide, hfi, ?_⟩
      rw [hsize]
      omega
    . unfold blockno
      rw [slot_direct (by decide), haddr, bitmap_byte_zero (show t.freeblock ≤ 8 * 12 by omega),
        bitmap_byte_zero (show t.freeblock ≤ 8 * 13 by omega), bitmap_byte_zero (show t.freeblock ≤ 8 * 14 by omega),
        bitmap_byte_zero (show t.freeblock ≤ 8 * 15 by omega)]
      rfl
  . have h11 : 1 ≤ (bitmap t.freeblock (8 + 3)).toNat := bitmap_byte (by omega)
    apply hwf.mapped 208 MAXFILE
    . refine ⟨by decide, hfi, ?_⟩
      rw [hsize]
      unfold MAXFILE NDIRECT NINDIRECT BSIZE
      omega
    . exact slot_of_le le_rfl

theorem fixroot_bitmap (hok : fixroot t = .ok t')
    : t'.image sb.bmapstart = bitmap t'.freeblock ∧ t'.freeinode = t.freeinode ∧ t'.freeblock = t.freeblock := by
  obtain ⟨din, -, hok⟩ := bind_eq_ok hok
  obtain ⟨image, -, hok⟩ := bind_eq_ok hok
  obtain ⟨image', hballoc, hok⟩ := bind_eq_ok hok
  cases hok
  unfold balloc at hballoc
  split at hballoc <;> cases hballoc
  have hsect := wsect_eq image (bitmap t.freeblock) (show sb.bmapstart < FSSIZE by decide)
  refine ⟨?_, rfl, rfl⟩
  dsimp only
  rw [hsect, Function.update_self]

theorem many_files (hok : main files = .ok t) (hlen : maxfiles < files.length) : ¬ WellFormed t := by
  obtain ⟨t0, hroot, hok⟩ := bind_eq_ok hok
  obtain ⟨t2, hfiles, hfix⟩ := bind_eq_ok hok
  rw [← List.take_append_drop maxfiles files, List.foldlM_append] at hfiles
  obtain ⟨t1, htake, hdrop⟩ := bind_eq_ok hfiles
  obtain ⟨h0, hfi0⟩ := mkroot_laid hroot
  have hmax : (files.take maxfiles).length = maxfiles := by
    rw [List.length_take]
    omega
  have hroom : maxfiles + 2 = IPB * ninodeblocks := by decide
  obtain ⟨h1, hfi1⟩ := files_laid h0 hfi0 (by rw [hmax]; decide) htake
  rw [List.nil_append] at h1
  rw [List.length_nil, Nat.zero_add] at hfi1
  have hfb1 := h1.freeblock_ge hfi1 hmax
  obtain ⟨hfb2, hfi2⟩ := files_mono hdrop
  obtain ⟨hbitmap, hfi, hfb⟩ := fixroot_bitmap hfix
  rw [List.length_drop] at hfi2
  exact lost_inode hbitmap (by omega) (by omega)

/--
The image is well formed if and only if there are inodes for all files and the root directory does not end with a full
block.
-/
theorem main_wellFormed_iff (hok : main files = .ok t)
    : WellFormed t ↔ files.length ≤ maxfiles ∧ (files.length + 2) % 32 ≠ 0 := by
  by_cases hlen : files.length ≤ maxfiles
  . obtain ⟨t1, h1, hfi1, hfix⟩ := main_laid hlen hok
    have ht : t = t1.fixed := by
      rw [fixroot_eq h1] at hfix
      cases hfix
      rfl
    rw [ht]
    constructor
    . intro hwf
      refine ⟨hlen, fun hfull => ?_⟩
      exact fixed_full h1 hfi1 hlen hfull hwf
    . intro h
      exact fixed_wellFormed h1 hfi1 h.2
  . constructor
    . intro hwf
      exact absurd hwf (many_files hok (by omega))
    . intro h
      exact absurd h.1 hlen

def emptyFile (name : List UInt8) : File where
  name := name
  chunks := []
  chunk_pos := by simp
  chunk_le := by simp

theorem rounds_dirent (off : Nat) : rounds off DIRENT ≤ 2 := by
  unfold rounds
  rw [if_neg (by decide)]
  unfold BSIZE DIRENT
  omega

theorem append_dirent {inum j : Nat} {name : List UInt8} (h : Laid t c) (hpos : 0 < inum) (hlt : inum < t.freeinode)
    (hmax : (c inum).length + DIRENT ≤ MAXFILE * BSIZE) (hfb : t.freeblock + 4 ≤ FSSIZE)
    : ∃ t', iappend t inum (direntBytes j name) = .ok t' ∧
        Laid t' (Function.update c inum (c inum ++ direntBytes j name)) ∧ t'.freeinode = t.freeinode ∧
        t'.freeblock ≤ t.freeblock + 4 := by
  have hlen := direntBytes_length j name
  have hrounds := rounds_dirent (c inum).length
  rcases iappend_sim h hpos hlt (direntBytes_ne_nil j name) (by rw [hlen]; exact hmax) with
    ⟨t', hok, h', hfi, -, hfb'⟩ | ⟨hend, -⟩
  . rw [hlen] at hfb'
    exact ⟨t', hok, h', hfi, by omega⟩
  . rw [hlen] at hend
    omega

theorem mkroot_ok : ∃ t, mkroot zeroed = .ok t ∧ t.freeblock ≤ nmeta + 8 := by
  have hroot : zeroed.freeinode = ROOTINO := rfl
  have hfb0 : zeroed.freeblock = nmeta := rfl
  have hsize : nmeta + 8 ≤ FSSIZE := by decide
  have hmax : DIRENT + DIRENT ≤ MAXFILE * BSIZE := by decide
  obtain ⟨t1, halloc, h1, hfi1, hfb1⟩ :=
    ialloc_laid (zeroed_laid fun _ => []) (by decide) (show T_DIR = kind zeroed.freeinode from rfl)
  rw [hroot] at h1 hfi1 halloc
  have hlt : ROOTINO < t1.freeinode := by omega
  obtain ⟨t2, hdot, h2, hfi2, hfb2⟩ :=
    append_dirent (j := ROOTINO) h1 (show 0 < ROOTINO by decide) hlt (by rw [Function.update_self]; decide) (by omega)
  obtain ⟨t3, hdots, -, -, hfb3⟩ := append_dirent (j := ROOTINO) h2 (show 0 < ROOTINO by decide) (by omega)
    (by rw [Function.update_self, Function.update_self, List.nil_append, direntBytes_length]; exact hmax) (by omega)
  refine ⟨t3, ?_, by omega⟩
  unfold mkroot
  rw [halloc, ok_bind]
  dsimp only
  rw [if_neg (by simp), hdot, ok_bind, hdots]

theorem empties_ok {done : List File} {name : List UInt8} (k : Nat) (hname : 0x2f ∉ name) (h : Laid t (contents done))
    (hfi : t.freeinode = done.length + 2) (hlen : done.length + k ≤ maxfiles) (hfb : t.freeblock + 4 * k ≤ FSSIZE)
    : ∃ t', (List.replicate k (emptyFile name)).foldlM addFile t = .ok t' := by
  have hmax : maxfiles = 206 := by decide
  induction k generalizing t done with
  | zero => exact ⟨t, rfl⟩
  | succ k ih =>
    have hroom : room.ninodes = 208 := by decide
    have hkind : T_FILE = kind t.freeinode := by
      have : t.freeinode ≠ ROOTINO := by
        unfold ROOTINO
        omega
      rw [kind, if_neg this]
    obtain ⟨t1, halloc, h1, hfi1, hfb1⟩ := ialloc_laid h (by omega) hkind
    have hroot : ROOTINO < t1.freeinode := by
      unfold ROOTINO
      omega
    have hdir : (Function.update (contents done) t.freeinode [] ROOTINO).length + DIRENT ≤ MAXFILE * BSIZE := by
      have hne : ROOTINO ≠ t.freeinode := by
        unfold ROOTINO
        omega
      rw [Function.update_of_ne hne, root_length]
      unfold DIRENT MAXFILE NDIRECT NINDIRECT BSIZE
      omega
    have hsim : ∃ t2, iappend t1 ROOTINO (direntBytes t.freeinode (emptyFile name).target) = .ok t2 ∧
        t2.freeblock ≤ t1.freeblock + 4 := by
      obtain ⟨t2, happend, -, -, hfb2⟩ := append_dirent h1 (show 0 < ROOTINO by decide) hroot hdir (by omega)
      exact ⟨t2, happend, hfb2⟩
    obtain ⟨t2, happend, hfb2⟩ := hsim
    have hname' : (0x2f : UInt8) ∉ (emptyFile name).name := hname
    have hadd : addFile t (emptyFile name) = .ok t2 := by
      unfold addFile
      rw [if_neg hname', halloc, ok_bind]
      dsimp only
      rw [happend]
      rfl
    obtain ⟨h2, hfi2, -⟩ := addFile_laid h hfi (by omega) hadd
    have hlast : (done ++ [emptyFile name]).length = done.length + 1 := List.length_append
    obtain ⟨t3, hrest⟩ := ih h2 (by omega) (by omega) (by omega)
    refine ⟨t3, ?_⟩
    rw [List.replicate_succ, List.foldlM_cons, hadd]
    exact hrest

theorem main_empties {name : List UInt8} (k : Nat) (hname : 0x2f ∉ name) (hk : k ≤ maxfiles)
    : ∃ t, main (List.replicate k (emptyFile name)) = .ok t := by
  have hmax : maxfiles = 206 := by decide
  have hsize : nmeta + 8 + 4 * 206 ≤ FSSIZE := by decide
  obtain ⟨t0, hroot, hfb0⟩ := mkroot_ok
  obtain ⟨h0, hfi0⟩ := mkroot_laid hroot
  obtain ⟨t1, hfiles⟩ := empties_ok k hname h0 hfi0 (by simpa using hk) (by omega)
  have hroom : room.ninodes = 208 := by decide
  obtain ⟨h1, -⟩ := files_laid h0 hfi0 (by simp; omega) hfiles
  refine ⟨t1.fixed, ?_⟩
  unfold main
  rw [hroot, ok_bind, hfiles, ok_bind, fixroot_eq h1]
  rfl

-- With 30 files the root directory fills its block.
theorem root_beyond_its_block : ¬ ∀ files t, main files = .ok t → WellFormed t := by
  intro h
  have hname : (0x2f : UInt8) ∉ [0x61] := by decide
  obtain ⟨t, ht⟩ := main_empties 30 hname (by decide)
  obtain ⟨t1, h1, hfi1, hfix⟩ := main_laid (by decide) ht
  rw [fixroot_eq h1] at hfix
  cases hfix
  exact fixed_full h1 hfi1 (by decide) (by decide) (h _ _ ht)

-- The bytes of the second file, whose name becomes `b`, cross the border of its first block.
def twoFiles : List File :=
  [{ name := [0x61], chunks := [[1, 2, 3]], chunk_pos := by decide, chunk_le := by decide },
    { name := [0x5f, 0x62], chunks := [List.replicate 500 7, [8, 9, 10, 11, 12, 13, 14, 15, 16, 17, 18, 19, 20]],
      chunk_pos := by decide +kernel, chunk_le := by decide +kernel }]

theorem main_twoFiles : ∃ t, main twoFiles = .ok t := by
  have hok : (main twoFiles).isOk = true := by decide +kernel
  cases h : main twoFiles with
  | error e =>
    rw [h] at hok
    cases hok
  | ok t => exact ⟨t, rfl⟩

theorem main_wellFormed_iff_two
    : ∃ t, main twoFiles = .ok t ∧ (WellFormed t ↔ 2 ≤ maxfiles ∧ (2 + 2) % 32 ≠ 0) := by
  obtain ⟨t, ht⟩ := main_twoFiles
  exact ⟨t, ht, main_wellFormed_iff ht⟩

end Xv6.Mkfs
