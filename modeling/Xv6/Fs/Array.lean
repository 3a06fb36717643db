import Xv6.Fs.File
import Xv6.Lib.Machine

/-!
Files as arrays of bytes. The history beside the machine holds, for each inode, the bytes that the calls of `writei`
have left there.
-/

namespace Xv6.Fs

open Bytes Outcome

variable {sb : Superblock} {disk disk' disk1 disk2 : Disk} {ip ip' ip1 : Dinode} {i inum b k bn off n : Nat} {src : Memory}

-- The disk and the inodes in memory.
structure State where
  disk : Disk
  ino : Nat → Dinode

/-- The state between two operations. -/
structure WellFormed (sb : Superblock) (s : State) : Prop where
  owned : Owned sb s.disk s.ino []
  coherent : ∀ i < sb.ninodes, dinode sb s.disk i = s.ino i
  mapped : ∀ i < sb.ninodes, (s.ino i).type ≠ 0 → ∀ bn, bn * BSIZE < (s.ino i).size →
    slot s.disk (s.ino i) (.data bn) ≠ 0

namespace WellFormed

variable {s : State}

theorem fits (h : WellFormed sb s) (hi : i < sb.ninodes) : (s.ino i).Fits := by
  rw [← h.coherent i hi]
  exact getDinode_fits _ _

theorem size_le (h : WellFormed sb s) (hi : i < sb.ninodes) (ht : (s.ino i).type ≠ 0)
    : (s.ino i).size ≤ MAXFILE * BSIZE := by
  by_contra hlt
  exact h.mapped i hi ht MAXFILE (by omega) (slot_of_le le_rfl)

theorem mapped_byte (h : WellFormed sb s) (hi : i < sb.ninodes) (ht : (s.ino i).type ≠ 0) (hk : k < (s.ino i).size)
    : slot s.disk (s.ino i) (.data (k / BSIZE)) ≠ 0 := by
  apply h.mapped i hi ht
  unfold BSIZE
  omega

end WellFormed

theorem own_eq_of_addrs {ino ino' : Nat → Dinode} (ht : ∀ i, (ino' i).type = (ino i).type)
    (ha : ∀ i, (ino' i).addrs = (ino i).addrs) (x : Nat × Slot)
    : own sb disk ino' x = own sb disk ino x := by
  obtain ⟨i, s⟩ := x
  simp only [own, ht]
  split
  . cases s <;> simp only [slot, ha]
  . rfl

theorem Owned.of_addrs {ino ino' : Nat → Dinode} {held : List Nat} (h : Owned sb disk ino held)
    (ht : ∀ i, (ino' i).type = (ino i).type) (ha : ∀ i, (ino' i).addrs = (ino i).addrs)
    : Owned sb disk ino' held where
  ledger := h.ledger.congr (own_eq_of_addrs ht ha) (fun _ _ _ => Iff.rfl)
  reserved := h.reserved

theorem own_of_inodes {ino ino' : Nat → Dinode} (hino : ∀ i < sb.ninodes, ino' i = ino i) (x : Nat × Slot)
    : own sb disk ino' x = own sb disk ino x := by
  unfold own
  by_cases hx : x.1 < sb.ninodes
  . rw [hino x.1 hx]
  . rw [if_neg (fun hlive => hx hlive.1), if_neg (fun hlive => hx hlive.1)]

theorem WellFormed.congr {s : State} {ino' : Nat → Dinode} (h : WellFormed sb s)
    (hino : ∀ i < sb.ninodes, ino' i = s.ino i)
    : WellFormed sb ⟨s.disk, ino'⟩ where
  owned := by
    refine ⟨?_, h.owned.reserved⟩
    exact h.owned.ledger.congr (own_of_inodes hino) (fun _ _ _ => Iff.rfl)
  coherent i hi := by
    dsimp only
    rw [hino i hi]
    exact h.coherent i hi
  mapped i hi := by
    dsimp only
    rw [hino i hi]
    exact h.mapped i hi

theorem iupdate_of_le {x : Nat} (hi : inum < sb.ninodes) (hx : sb.bmapstart ≤ x)
    : iupdate sb disk inum ip x = disk x := by
  have := IBLOCK_lt hi
  exact Function.update_of_ne (by omega) _ _

theorem Owned.iupdate {ino : Nat → Dinode} {held : List Nat} (h : Owned sb disk ino held) (hi : inum < sb.ninodes)
    : Owned sb (iupdate sb disk inum ip) ino held := by
  have := bmapstart_lt sb
  apply h.congr
  . intro j hj
    have := h.le hj
    exact iupdate_of_le hi (by omega)
  . intro c _
    exact bit_congr (iupdate_of_le hi (le_BBLOCK sb c))

theorem slot_of_own {ino : Nat → Dinode} (hi : i < sb.ninodes) (ht : (ino i).type ≠ 0)
    (h : ∀ s, own sb disk ino (i, s) ≠ 0 → disk' (own sb disk ino (i, s)) = disk (own sb disk ino (i, s))) (s : Slot)
    : slot disk' (ino i) s = slot disk (ino i) s := by
  apply slot_congr
  intro htable
  have := h .table
  rw [own_live hi ht] at this
  exact this htable

theorem content_of_own {ino : Nat → Dinode} (hi : i < sb.ninodes) (ht : (ino i).type ≠ 0)
    (hmap : ∀ k < (ino i).size, slot disk (ino i) (.data (k / BSIZE)) ≠ 0)
    (h : ∀ s, own sb disk ino (i, s) ≠ 0 → disk' (own sb disk ino (i, s)) = disk (own sb disk ino (i, s)))
    : content disk' (ino i) = content disk (ino i) := by
  apply List.map_congr_left
  intro k hk
  have := h (.data (k / BSIZE))
  rw [own_live hi ht] at this
  rw [fileByte, slot_of_own hi ht h, this (hmap k (List.mem_range.mp hk)), fileByte]

theorem content_length (disk : Disk) (ip : Dinode) : (content disk ip).length = ip.size := by
  simp [content]

-- The array `c` with the bytes `src[0 .. n)` at the offset `off`.
def overwrite (c : List UInt8) (src : Memory) (off n : Nat) : List UInt8 :=
  (List.range (max c.length (off + n))).map fun k => if off ≤ k ∧ k < off + n then src (k - off) else c.getD k 0

theorem content_eq_overwrite (hoff : off ≤ ip.size) (hmap : ∀ k < ip.size, slot disk ip (.data (k / BSIZE)) ≠ 0)
    (hw : Wrote disk ip src off n disk' ip1) (hsize : ip1.size = max ip.size (off + n))
    : content disk' ip1 = overwrite (content disk ip) src off n := by
  unfold overwrite
  rw [content_length, ← hsize]
  apply List.map_congr_left
  intro k hk
  rw [List.mem_range, hsize] at hk
  split
  . next hin => exact hw.written k hin.1 hin.2
  . next hout =>
    have hlt : k < ip.size := by omega
    rw [hw.kept k (hmap k hlt) hout]
    simp [content, hlt]

-- The arguments with which `writei` does not return -1.
def Accepts (size off n : Nat) : Prop :=
  off ≤ size ∧ off + n < 2 ^ 32 ∧ off + n ≤ MAXFILE * BSIZE

instance (size off n : Nat) : Decidable (Accepts size off n) :=
  inferInstanceAs (Decidable (_ ∧ _))

theorem writei_rejects {devsw : Devsw} (hdev : ip.type ≠ T_DEV) (hoff : off < 2 ^ 32) (hn : n < 2 ^ 32)
    (h : ¬ Accepts ip.size off n)
    : writei sb devsw disk inum ip src off n = .ok ⟨disk, ip, -1⟩ := by
  unfold writei
  rw [if_neg hdev]
  split
  . rfl
  . next h1 =>
    have hmod : off + n < 2 ^ 32 := by omega
    rw [if_pos]
    unfold Accepts at h
    omega

-- What an operation on the inode `inum` that is well-formed again leaves behind for the others.
structure Others (sb : Superblock) (inum : Nat) (s s' : State) : Prop where
  ino : ∀ j, j ≠ inum → s'.ino j = s.ino j
  content : ∀ j < sb.ninodes, j ≠ inum → (s.ino j).type ≠ 0 → content s'.disk (s'.ino j) = content s.disk (s.ino j)

theorem Writes.others {s : State} (hs : WellFormed sb s) (h : Writes sb inum s.disk s.ino disk1 ip1)
    (hdisk : ∀ x, sb.nmeta ≤ x → disk2 x = disk1 x)
    : Others sb inum s ⟨disk2, Function.update s.ino inum ip'⟩ where
  ino j hj := Function.update_of_ne hj _ _
  content j hj hne ht := by
    dsimp only
    rw [Function.update_of_ne hne]
    apply content_of_own hj ht (fun k hk => hs.mapped_byte hj ht hk)
    intro slot hslot
    rw [hdisk _ (hs.owned.le hslot)]
    exact h.data (j, slot) hne hslot

-- `iupdate` and a new size do not matter to the blocks of the inode.
theorem Writes.settle_slot {ino : Nat → Dinode} (h : Writes sb inum disk ino disk1 ip1)
    (hdisk : ∀ x, sb.nmeta ≤ x → disk2 x = disk1 x) (haddrs : ip'.addrs = ip1.addrs) (sl : Slot)
    : slot disk2 ip' sl = slot disk1 ip1 sl := by
  have hself : ∀ sl, own sb disk1 (Function.update ino inum ip1) (inum, sl) = slot disk1 ip1 sl := by
    intro sl
    rw [own_live h.live'.1 h.live'.2, Function.update_self]
  have hip : ∀ d, slot d ip' sl = slot d ip1 sl := by
    intro d
    cases sl <;> simp only [slot, haddrs]
  rw [hip]
  apply slot_congr
  intro htable
  apply hdisk
  have := h.owned.le (x := (inum, .table)) (by rwa [hself])
  rwa [hself] at this

theorem Wrote.settle {ino : Nat → Dinode} (hw : Wrote disk (ino inum) src off n disk1 ip1)
    (h : Writes sb inum disk ino disk1 ip1) (hdisk : ∀ x, sb.nmeta ≤ x → disk2 x = disk1 x)
    (haddrs : ip'.addrs = ip1.addrs)
    : Wrote disk (ino inum) src off n disk2 ip' := by
  have hslot := h.settle_slot hdisk haddrs
  have hbyte : ∀ k, slot disk1 ip1 (.data (k / BSIZE)) ≠ 0 → fileByte disk2 ip' k = fileByte disk1 ip1 k := by
    intro k hk
    have hown : own sb disk1 (Function.update ino inum ip1) (inum, .data (k / BSIZE)) =
        slot disk1 ip1 (.data (k / BSIZE)) := by
      rw [own_live h.live'.1 h.live'.2, Function.update_self]
    have hle := h.owned.le (x := (inum, .data (k / BSIZE))) (by rwa [hown])
    rw [hown] at hle
    rw [fileByte, hslot, hdisk _ hle, fileByte]
  constructor
  . intro k hlo hhi
    rw [hslot]
    exact hw.mapped k hlo hhi
  . intro k hlo hhi
    rw [hbyte k (hw.mapped k hlo hhi)]
    exact hw.written k hlo hhi
  . intro k hk hout
    have := h.keep _ hk
    rw [hbyte k (by rwa [this])]
    exact hw.kept k hk hout

theorem Writes.mapped {s : State} (hs : WellFormed sb s) (h : Writes sb inum s.disk s.ino disk1 ip1)
    (hw : Wrote s.disk (s.ino inum) src off n disk1 ip1) (hoff : off ≤ (s.ino inum).size)
    (hdisk : ∀ x, sb.nmeta ≤ x → disk2 x = disk1 x) (haddrs : ip'.addrs = ip1.addrs)
    (hsize : ip'.size ≤ max (s.ino inum).size (off + n))
    (hj : i < sb.ninodes) (ht : (Function.update s.ino inum ip' i).type ≠ 0)
    (hbn : bn * BSIZE < (Function.update s.ino inum ip' i).size)
    : slot disk2 (Function.update s.ino inum ip' i) (.data bn) ≠ 0 := by
  by_cases hne : i = inum
  . subst hne
    rw [Function.update_self] at hbn ⊢
    have hslot1 : slot disk1 ip1 (.data bn) ≠ 0 := by
      by_cases hin : bn * BSIZE < (s.ino i).size
      . have := hs.mapped i h.live.1 h.live.2 bn hin
        rw [h.keep _ this]
        exact this
      . have := hw.mapped (bn * BSIZE) (by omega) (by omega)
        rwa [Nat.mul_div_cancel _ (show 0 < BSIZE by decide)] at this
    rw [h.settle_slot hdisk haddrs]
    exact hslot1
  . rw [Function.update_of_ne hne] at ht hbn ⊢
    rw [slot_of_own hj ht]
    . exact hs.mapped i hj ht bn hbn
    . intro sl hsl
      rw [hdisk _ (hs.owned.le hsl)]
      exact h.data (i, sl) hne hsl

theorem writei_spec {s : State} {devsw : Devsw} {r : WriteResult} (hs : WellFormed sb s) (hi : inum < sb.ninodes)
    (ht : (s.ino inum).type ≠ 0) (hdev : (s.ino inum).type ≠ T_DEV) (hacc : Accepts (s.ino inum).size off n)
    (hw : writei sb devsw s.disk inum (s.ino inum) src off n = .ok r)
    : r.ret = n ∧ WellFormed sb ⟨r.disk, Function.update s.ino inum r.ip⟩ ∧
      Others sb inum s ⟨r.disk, Function.update s.ino inum r.ip⟩ ∧
      r.ip.type = (s.ino inum).type ∧ r.ip.size = max (s.ino inum).size (off + n) ∧
      content r.disk r.ip = overwrite (content s.disk (s.ino inum)) src off n := by
  obtain ⟨hoff, hwrap, hmax⟩ := hacc
  have hmap : ∀ k < (s.ino inum).size, slot s.disk (s.ino inum) (.data (k / BSIZE)) ≠ 0 :=
    fun k hk => hs.mapped_byte hi ht hk
  unfold writei at hw
  rw [if_neg hdev, if_neg (by omega), if_neg (by rw [Nat.mod_eq_of_lt hwrap]; omega)] at hw
  obtain ⟨⟨disk1, ip1⟩, hloop, hw⟩ := bind_eq_ok hw
  obtain ⟨hwrites, hwrote⟩ := writeLoop_spec hs.owned ⟨hi, ht⟩ (hs.fits hi) hloop
  have hmeta := bmapstart_lt sb
  dsimp only at hw
  split at hw
  . next hgrows =>
    cases hw
    have hsize : off + n = max (s.ino inum).size (off + n) := by
      rw [hwrites.size_eq] at hgrows
      omega
    have hfits : ({ ip1 with size := off + n } : Dinode).Fits :=
      ⟨hwrites.fits.type, hwrites.fits.major, hwrites.fits.minor, hwrites.fits.nlink, hwrap, hwrites.fits.addrs,
        hwrites.fits.rest⟩
    have hdisk : ∀ x, sb.nmeta ≤ x → iupdate sb disk1 inum { ip1 with size := off + n } x = disk1 x :=
      fun x hx => iupdate_of_le hi (by omega)
    refine ⟨rfl, ⟨?_, ?_, ?_⟩, hwrites.others hs hdisk, hwrites.type_eq, hsize, ?_⟩
    . apply Owned.iupdate _ hi
      apply hwrites.owned.of_addrs
      . intro j
        simp only [Function.update_apply]
        split <;> rfl
      . intro j
        simp only [Function.update_apply]
        split <;> rfl
    . intro j hj
      by_cases hne : j = inum
      . rw [hne]
        dsimp only
        rw [dinode_iupdate hfits, Function.update_self]
      . dsimp only
        rw [dinode_iupdate_of_ne hne, hwrites.dinode j hj, hs.coherent j hj, Function.update_of_ne hne]
    . intro j hj htj bn hbn
      exact hwrites.mapped hs hwrote hoff hdisk rfl (le_of_eq hsize) hj htj hbn
    . exact content_eq_overwrite hoff hmap (hwrote.settle hwrites hdisk rfl) hsize
  . next hgrows =>
    cases hw
    have hin : off + n ≤ (s.ino inum).size := by
      rw [hwrites.size_eq] at hgrows
      omega
    have hip : ip1 = s.ino inum := by
      obtain ⟨_, hret⟩ := writeLoop_of_mapped (n := n) hs.owned ⟨hi, ht⟩ (hs.fits hi) hmax
        (fun k _ hk => hmap k (by omega))
      rw [hloop] at hret
      cases hret
      rfl
    have hsize : ip1.size = max (s.ino inum).size (off + n) := by
      rw [hwrites.size_eq]
      omega
    refine ⟨rfl, ⟨hwrites.owned, ?_, ?_⟩, hwrites.others hs (fun _ _ => rfl), hwrites.type_eq, hsize, ?_⟩
    . intro j hj
      dsimp only
      rw [hwrites.dinode j hj, hs.coherent j hj, hip, Function.update_eq_self]
    . intro j hj htj bn hbn
      exact hwrites.mapped hs hwrote hoff (fun _ _ => rfl) rfl (le_of_eq hsize) hj htj hbn
    . exact content_eq_overwrite hoff hmap hwrote hsize

theorem writei_within {s : State} {devsw : Devsw} (hs : WellFormed sb s) (hi : inum < sb.ninodes)
    (ht : (s.ino inum).type ≠ 0) (hdev : (s.ino inum).type ≠ T_DEV) (hin : off + n ≤ (s.ino inum).size)
    : ∃ r, writei sb devsw s.disk inum (s.ino inum) src off n = .ok r := by
  have hmax := hs.size_le hi ht
  have hbig : MAXFILE * BSIZE < 2 ^ 32 := by decide
  have hwrap : off + n < 2 ^ 32 := by omega
  obtain ⟨disk1, hloop⟩ : ∃ disk1, writeLoop sb s.disk (s.ino inum) src off n = .ok (disk1, s.ino inum) := by
    apply writeLoop_of_mapped hs.owned ⟨hi, ht⟩ (hs.fits hi) (by omega)
    intro k _ hk
    exact hs.mapped_byte hi ht (by omega)
  unfold writei
  rw [if_neg hdev, if_neg (by omega), if_neg (by rw [Nat.mod_eq_of_lt hwrap]; omega), hloop]
  simp only [bind, Except.bind]
  split
  . exact ⟨_, rfl⟩
  . exact ⟨_, rfl⟩

theorem writei_error {devsw : Devsw} {msg : String} (hw : writei sb devsw disk inum ip src off n = .error msg)
    (hwrap : off + n < 2 ^ 32)
    : msg = "balloc: out of blocks" := by
  unfold writei at hw
  split at hw
  . split at hw
    . cases hw
    . cases hw
  . split at hw
    . cases hw
    . split at hw
      . cases hw
      . next hmax =>
        rw [Nat.mod_eq_of_lt hwrap] at hmax
        obtain hw | ⟨_, _, hw⟩ := bind_eq_error hw
        . exact writeLoop_error (by omega) hw
        . dsimp only at hw
          split at hw
          . cases hw
          . cases hw

theorem readi_of_mapped {devsw : Devsw} (hdev : ip.type ≠ T_DEV) (hmax : ip.size ≤ MAXFILE * BSIZE)
    (hoff : off < 2 ^ 32) (hn : n < 2 ^ 32)
    (hmap : ∀ k, off ≤ k → k < min (off + n) ip.size → slot disk ip (.data (k / BSIZE)) ≠ 0)
    : readi sb devsw disk ip off n =
      if off ≤ ip.size ∧ off + n < 2 ^ 32 then
        .ok ⟨disk, ip, (min n (ip.size - off) : Nat), ((content disk ip).drop off).take n⟩
      else .ok ⟨disk, ip, -1, []⟩ := by
  have hbig : MAXFILE * BSIZE < 2 ^ 32 := by decide
  unfold readi
  rw [if_neg hdev]
  split
  . next hbad => rw [if_neg (by omega)]
  . next hgood =>
    have hwrap : off + n < 2 ^ 32 := by omega
    have hcount : (if (off + n) % 2 ^ 32 > ip.size then ip.size - off else n) = min n (ip.size - off) := by
      rw [Nat.mod_eq_of_lt hwrap]
      split <;> omega
    have hok : off ≤ ip.size ∧ off + n < 2 ^ 32 := by omega
    dsimp only
    rw [if_pos hok, hcount, readLoop_spec (by omega) (fun k hlo hhi => hmap k hlo (by omega))]
    simp only [bind, Except.bind, pure, Except.pure, Except.ok.injEq, ReadResult.mk.injEq, true_and]
    apply List.ext_getElem
    . simp [content]
    . intro k h1 h2
      simp [content]

theorem readi_spec {s : State} {devsw : Devsw} (hs : WellFormed sb s) (hi : inum < sb.ninodes)
    (ht : (s.ino inum).type ≠ 0) (hdev : (s.ino inum).type ≠ T_DEV) (hoff : off < 2 ^ 32) (hn : n < 2 ^ 32)
    : readi sb devsw s.disk (s.ino inum) off n =
      if off ≤ (s.ino inum).size ∧ off + n < 2 ^ 32 then
        .ok ⟨s.disk, s.ino inum, (min n ((s.ino inum).size - off) : Nat),
          ((content s.disk (s.ino inum)).drop off).take n⟩
      else .ok ⟨s.disk, s.ino inum, -1, []⟩ :=
  readi_of_mapped hdev (hs.size_le hi ht) hoff hn fun _ _ hk => hs.mapped_byte hi ht (by omega)

section

variable (sb : Superblock) (devsw : Devsw)

inductive Event where
  | writei (inum : Nat) (src : Memory) (off n : BitVec 32)
  | readi (inum : Nat) (off n : BitVec 32)

inductive Output where
  | ret (r : Int)
  | data (r : Int) (bytes : List UInt8)
  deriving DecidableEq, Repr

-- The inodes that the calls are for.
def State.isFile (s : State) (inum : Nat) : Prop :=
  inum < sb.ninodes ∧ (s.ino inum).type ≠ 0 ∧ (s.ino inum).type ≠ T_DEV

instance (s : State) (inum : Nat) : Decidable (s.isFile sb inum) :=
  inferInstanceAs (Decidable (_ ∧ _))

-- A call that panics is not a step.
def step : Machine State Event Output := fun s e =>
  match e with
  | .writei inum src off n =>
    if s.isFile sb inum then
      match writei sb devsw s.disk inum (s.ino inum) src off.toNat n.toNat with
      | .ok r => some (⟨r.disk, Function.update s.ino inum r.ip⟩, .ret r.ret)
      | .error _ => none
    else none
  | .readi inum off n =>
    if s.isFile sb inum then
      match readi sb devsw s.disk (s.ino inum) off.toNat n.toNat with
      | .ok r => some (⟨r.disk, Function.update s.ino inum r.ip⟩, .data r.ret r.data)
      | .error _ => none
    else none

-- The arrays that the calls are meant to work on.
def arrays (_ : State) (e : Event) (_ : State) (h : Nat → List UInt8) : Nat → List UInt8 :=
  match e with
  | .writei inum src off n =>
    if Accepts (h inum).length off.toNat n.toNat then
      Function.update h inum (overwrite (h inum) src off.toNat n.toNat)
    else h
  | .readi _ _ _ => h

-- Every file holds its array.
def Refines (x : State × (Nat → List UInt8)) : Prop :=
  ∀ inum, x.1.isFile sb inum → content x.1.disk (x.1.ino inum) = x.2 inum

/--
What a call does with the array `h inum`: `readi` returns its bytes, `writei` makes the size the maximum of the old one
and the end of the write, and a call that is rejected changes nothing.
-/
def Behaves (x : State × (Nat → List UInt8)) (e : Event) (o : Output) (x' : State × (Nat → List UInt8)) : Prop :=
  match e with
  | .writei inum _ off n =>
    if Accepts (x.2 inum).length off.toNat n.toNat then
      o = .ret n.toNat ∧ (x'.1.ino inum).size = max (x.1.ino inum).size (off.toNat + n.toNat)
    else o = .ret (-1) ∧ x'.1 = x.1
  | .readi inum off n =>
    x'.1 = x.1 ∧
    if off.toNat ≤ (x.2 inum).length ∧ off.toNat + n.toNat < 2 ^ 32 then
      o = .data (min n.toNat ((x.2 inum).length - off.toNat) : Nat) (((x.2 inum).drop off.toNat).take n.toNat)
    else o = .data (-1) []

/--
The calls return: `readi` always does, and `writei` unless it makes the file longer and there is no free block left.
-/
def Returns (x : State × (Nat → List UInt8)) : Prop :=
  ∀ inum, x.1.isFile sb inum →
    (∀ off n, ∃ o x', step sb devsw x.1 (.readi inum off n) = some (x', o)) ∧
    ∀ src (off n : BitVec 32) msg,
      writei sb devsw x.1.disk inum (x.1.ino inum) src off.toNat n.toNat = .error msg →
        msg = "balloc: out of blocks" ∧ Accepts (x.2 inum).length off.toNat n.toNat ∧
          (x.2 inum).length < off.toNat + n.toNat

end

structure Inv (sb : Superblock) (x : State × (Nat → List UInt8)) : Prop where
  wf : WellFormed sb x.1
  refines : Refines sb x

theorem step_writei {devsw : Devsw} {x : State × (Nat → List UInt8)} {s' : State} {off n : BitVec 32} {o : Output}
    (hx : Inv sb x) (hs : step sb devsw x.1 (.writei inum src off n) = some (s', o))
    : Inv sb (s', arrays x.1 (.writei inum src off n) s' x.2) ∧
      Behaves x (.writei inum src off n) o (s', arrays x.1 (.writei inum src off n) s' x.2) := by
  obtain ⟨s, h⟩ := x
  unfold step at hs
  dsimp only at hs
  split at hs
  . next hfile =>
    have hcontent : content s.disk (s.ino inum) = h inum := hx.refines inum hfile
    have hlen : (h inum).length = (s.ino inum).size := by
      rw [← hcontent, content_length]
    split at hs
    . next r hw =>
      simp only [Option.some.injEq, Prod.mk.injEq] at hs
      obtain ⟨rfl, rfl⟩ := hs
      by_cases hacc : Accepts (s.ino inum).size off.toNat n.toNat
      . obtain ⟨hret, hwf, hothers, htype, hsize, hnew⟩ :=
          writei_spec hx.wf hfile.1 hfile.2.1 hfile.2.2 hacc hw
        simp only [arrays, Behaves, hlen, if_pos hacc, hret, Function.update_self, hsize, and_self, and_true]
        refine ⟨hwf, ?_⟩
        intro j hj
        by_cases hne : j = inum
        . subst hne
          dsimp only
          rw [Function.update_self, Function.update_self, hnew, hcontent]
        . have hj' : s.isFile sb j := by
            have := hj.2
            dsimp only at this
            rw [Function.update_of_ne hne] at this
            exact ⟨hj.1, this⟩
          rw [hothers.content j hj.1 hne hj'.2.1]
          dsimp only
          rw [Function.update_of_ne hne]
          exact hx.refines j hj'
      . rw [writei_rejects hfile.2.2 off.isLt n.isLt hacc] at hw
        cases hw
        simp only [arrays, Behaves, hlen, if_neg hacc, Function.update_eq_self, and_self, and_true]
        exact hx
    . simp at hs
  . simp at hs

theorem step_readi {devsw : Devsw} {x : State × (Nat → List UInt8)} {s' : State} {off n : BitVec 32} {o : Output}
    (hx : Inv sb x) (hs : step sb devsw x.1 (.readi inum off n) = some (s', o))
    : s' = x.1 ∧ Behaves x (.readi inum off n) o (s', x.2) := by
  obtain ⟨s, h⟩ := x
  unfold step at hs
  dsimp only at hs
  split at hs
  . next hfile =>
    have hcontent : content s.disk (s.ino inum) = h inum := hx.refines inum hfile
    have hlen : (h inum).length = (s.ino inum).size := by
      rw [← hcontent, content_length]
    rw [readi_spec hx.wf hfile.1 hfile.2.1 hfile.2.2 off.isLt n.isLt] at hs
    simp only [Behaves, hlen]
    split at hs
    . next r hr =>
      simp only [Option.some.injEq, Prod.mk.injEq] at hs
      obtain ⟨rfl, rfl⟩ := hs
      split at hr <;> cases hr
      . next hok =>
        simp only [Function.update_eq_self, if_pos hok, true_and]
        rw [← hcontent]
      . next hbad => simp only [Function.update_eq_self, if_neg hbad, and_self]
    . simp at hs
  . simp at hs

theorem step_inv {devsw : Devsw} {x x' : State × (Nat → List UInt8)} {e : Event} {o : Output} (hx : Inv sb x)
    (hstep : Machine.watch (step sb devsw) arrays x e = some (x', o))
    : Inv sb x' ∧ Behaves x e o x' := by
  obtain ⟨hs, hh⟩ := Machine.watch_eq_some hstep
  obtain ⟨s', h'⟩ := x'
  dsimp only at hs hh
  subst hh
  cases e with
  | writei inum src off n => exact step_writei hx hs
  | readi inum off n =>
    obtain ⟨rfl, hb⟩ := step_readi hx hs
    exact ⟨⟨hx.wf, hx.refines⟩, hb⟩

theorem Inv.returns {devsw : Devsw} {x : State × (Nat → List UInt8)} (hx : Inv sb x) : Returns sb devsw x := by
  intro inum hfile
  have hlen : (x.2 inum).length = (x.1.ino inum).size := by
    rw [← hx.refines inum hfile, content_length]
  constructor
  . intro off n
    unfold step
    dsimp only
    rw [if_pos hfile, readi_spec hx.wf hfile.1 hfile.2.1 hfile.2.2 off.isLt n.isLt]
    split
    . exact ⟨_, _, rfl⟩
    . next hr =>
      split at hr <;> cases hr
  . intro src off n msg hw
    have hacc : Accepts (x.1.ino inum).size off.toNat n.toNat := by
      by_contra hacc
      rw [writei_rejects hfile.2.2 off.isLt n.isLt hacc] at hw
      cases hw
    rw [hlen]
    refine ⟨writei_error hw hacc.2.1, hacc, ?_⟩
    by_contra hin
    obtain ⟨r, hr⟩ := writei_within hx.wf hfile.1 hfile.2.1 hfile.2.2 (Nat.le_of_not_lt hin)
    rw [hr] at hw
    cases hw

/-- Files behave as arrays of bytes, in every run of `readi` and `writei` from a well-formed state. -/
theorem files_are_arrays (sb : Superblock) (devsw : Devsw) (s : State) (hs : WellFormed sb s) (es : List Event)
    : Machine.Always (Machine.watch (step sb devsw) arrays) (fun x => Refines sb x ∧ Returns sb devsw x)
        (s, fun inum => content s.disk (s.ino inum)) es ∧
      Machine.Along (Machine.watch (step sb devsw) arrays) Behaves
        (s, fun inum => content s.disk (s.ino inum)) es := by
  have hinit : Inv sb (s, fun inum => content s.disk (s.ino inum)) := ⟨hs, fun _ _ => rfl⟩
  constructor
  . apply Machine.always_of_invariant (I := Inv sb) _ (fun x hx => ⟨hx.refines, hx.returns⟩) hinit
    intro x e o x' hx hstep
    exact (step_inv hx hstep).1
  . apply Machine.along_of_invariant (I := Inv sb) _ hinit (Machine.along_true _ es)
    intro x e o x' hx hstep _
    exact ⟨(step_inv hx hstep).2, (step_inv hx hstep).1⟩

-- The layout that `mkfs` chooses.
def mkfsLayout : Superblock where
  size := 1000
  ninodes := 200
  inodestart := 32
  bmapstart := 58
  inodes_lt := by
    intro i hi
    unfold IPB BSIZE DINODE
    omega
  meta_le := by decide
  size_le := by decide

def emptyInode (type : Nat) : Dinode :=
  { Dinode.zero with type := type, nlink := 1 }

-- A disk with an empty directory and an empty file.
def freshDisk : Disk := fun b =>
  if b = 32 then putDinode (putDinode (fun _ => 0) 1 (emptyInode T_DIR)) 2 (emptyInode T_FILE)
  else if b = 58 then fun k => if k < 7 then 0xff else if k = 7 then 0x07 else 0
  else fun _ => 0

def fresh : State where
  disk := freshDisk
  ino := dinode mkfsLayout freshDisk

theorem emptyInode_fits {type : Nat} (h : type < 2 ^ 16) : (emptyInode type).Fits := by
  constructor <;> simp [emptyInode, Dinode.zero]
  exact h

theorem fresh_ino (hi : i < 200)
    : fresh.ino i = if i = 1 then emptyInode T_DIR else if i = 2 then emptyInode T_FILE else .zero := by
  have hfits : ∀ t, t = T_DIR ∨ t = T_FILE → (emptyInode t).Fits := by
    rintro t (rfl | rfl)
    . exact emptyInode_fits (by decide)
    . exact emptyInode_fits (by decide)
  simp only [fresh, dinode, IBLOCK, mkfsLayout, IPB, BSIZE, DINODE]
  by_cases hblock : i / 8 = 0
  . have hmod : i % 8 = i := by omega
    have hdisk : freshDisk (i / (512 / 64) + 32) =
        putDinode (putDinode (fun _ => 0) 1 (emptyInode T_DIR)) 2 (emptyInode T_FILE) := by
      rw [freshDisk, if_pos (by omega)]
    rw [hdisk, show i % (512 / 64) = i from hmod]
    by_cases h2 : i = 2
    . subst h2
      rw [getDinode_putDinode (hfits _ (.inr rfl))]
      rfl
    . rw [getDinode_putDinode_of_ne h2]
      by_cases h1 : i = 1
      . subst h1
        rw [getDinode_putDinode (hfits _ (.inl rfl))]
        rfl
      . rw [getDinode_putDinode_of_ne h1, getDinode_zero, if_neg h1, if_neg h2]
  . have hdisk : freshDisk (i / (512 / 64) + 32) = fun _ => 0 := by
      rw [freshDisk, if_neg (by omega), if_neg (by omega)]
    rw [hdisk, getDinode_zero, if_neg (by omega), if_neg (by omega)]

-- The first 59 blocks are in use.
theorem bit_of_block {disk : Disk} (hdisk : disk 58 = fun k => if k < 7 then 0xff else if k = 7 then 0x07 else 0)
    {b : Nat} (hb : b < 1000)
    : bit mkfsLayout disk b = decide (b < 59) := by
  have hblock : BBLOCK mkfsLayout b = 58 := by
    change b / (512 * 8) + 58 = 58
    omega
  have hmod : b % BPB = b := by
    change b % (512 * 8) = b
    omega
  unfold bit testBit
  rw [hblock, hmod, hdisk]
  by_cases hlt : b < 64
  . have hall : ∀ b < 64, decide ((if b / 8 < 7 then 0xff else if b / 8 = 7 then 0x07 else (0 : UInt8)) &&& mask b ≠ 0) =
        decide (b < 59) := by
      decide +kernel
    exact hall b hlt
  . rw [decide_eq_false (by omega : ¬ b < 59)]
    apply decide_eq_false
    dsimp only
    rw [if_neg (by omega), if_neg (by omega), UInt8.zero_and]
    exact fun hne => hne rfl

theorem fresh_bit : (∀ b < 59, bit mkfsLayout freshDisk b = true) ∧
    ∀ b < 1000, 59 ≤ b → bit mkfsLayout freshDisk b = false := by
  constructor
  . intro b hb
    rw [bit_of_block rfl (by omega), decide_eq_true hb]
  . intro b hb hlo
    rw [bit_of_block rfl hb, decide_eq_false (by omega)]

theorem wf_of_empty {disk : Disk} (hmarked : ∀ b < 59, bit mkfsLayout disk b = true)
    (hclear : ∀ b < 1000, 59 ≤ b → bit mkfsLayout disk b = false)
    (haddrs : ∀ i < 200, ∀ k, (dinode mkfsLayout disk i).addrs k = 0) (hsize : ∀ i < 200, (dinode mkfsLayout disk i).size = 0)
    : WellFormed mkfsLayout ⟨disk, dinode mkfsLayout disk⟩ where
  owned := by
    have hown : ∀ x, own mkfsLayout disk (dinode mkfsLayout disk) x = 0 := by
      rintro ⟨i, sl⟩
      unfold own
      split
      . next hx =>
        cases sl with
        | table => exact haddrs i hx.1 NDIRECT
        | data bn => simp only [slot, haddrs i hx.1, ne_eq, not_true_eq_false, and_false, if_false, ite_self]
      . rfl
    refine ⟨⟨by decide, ?_, by simp, List.nodup_nil, ?_, by simp, ?_⟩, hmarked⟩
    . intro x y hx
      exact absurd (hown x) hx
    . intro x hx
      exact absurd (hown x) hx
    . intro b hlo hhi
      rw [hclear b hhi hlo]
      simp only [Bool.false_eq_true, hown, List.not_mem_nil, or_false, false_iff]
      have : 59 ≤ b := hlo
      omega
  coherent _ _ := rfl
  mapped i hi _ bn hbn := by
    have := hsize i hi
    dsimp only at hbn
    omega

theorem fresh_wf : WellFormed mkfsLayout fresh := by
  apply wf_of_empty fresh_bit.1 fresh_bit.2
  . intro i hi k
    have hino := fresh_ino hi
    dsimp only [fresh] at hino
    rw [hino]
    split
    . rfl
    . split <;> rfl
  . intro i hi
    have hino := fresh_ino hi
    dsimp only [fresh] at hino
    rw [hino]
    split
    . rfl
    . split <;> rfl

-- 600 bytes are written to the empty file, and four of them are read across the border of its blocks.
theorem files_are_arrays_fresh
    : Machine.outputs (step mkfsLayout ⟨fun _ => none, fun _ => none⟩) fresh
        [.writei 2 (fun k => UInt8.ofNat k) 0 600, .readi 2 510 4] = [.ret 600, .data 4 [254, 255, 0, 1]] ∧
      Machine.Along (Machine.watch (step mkfsLayout ⟨fun _ => none, fun _ => none⟩) arrays) Behaves
        (fresh, fun inum => content fresh.disk (fresh.ino inum))
        [.writei 2 (fun k => UInt8.ofNat k) 0 600, .readi 2 510 4] :=
  ⟨by decide +kernel, (files_are_arrays mkfsLayout ⟨fun _ => none, fun _ => none⟩ fresh fresh_wf _).2⟩

end Xv6.Fs
