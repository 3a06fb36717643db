import Xv6.Fs.Array

/-!
`itrunc` gives all blocks of an inode back to the bitmap, each of them once.
-/

namespace Xv6.Fs

open Bytes Outcome

variable {sb : Superblock} {disk disk' disk1 disk2 : Disk} {ino : Nat → Dinode} {held : List Nat} {ip ip' : Dinode}
  {inum b k : Nat}

-- What freeing a block leaves alone.
structure Kept (sb : Superblock) (disk disk' : Disk) : Prop where
  dinode : ∀ i < sb.ninodes, dinode sb disk' i = dinode sb disk i
  data : ∀ x, sb.nmeta ≤ x → disk' x = disk x

theorem Kept.refl (sb : Superblock) (disk : Disk) : Kept sb disk disk :=
  ⟨fun _ _ => rfl, fun _ _ => rfl⟩

theorem Kept.trans (h : Kept sb disk disk1) (h' : Kept sb disk1 disk2) : Kept sb disk disk2 where
  dinode i hi := (h'.dinode i hi).trans (h.dinode i hi)
  data x hx := (h'.data x hx).trans (h.data x hx)

theorem bfreeAll_spec {bs : List Nat} (h : Owned sb disk ino (bs ++ held))
    : ∃ disk', bs.foldlM (bfree sb) disk = .ok disk' ∧ Owned sb disk' ino held ∧ Kept sb disk disk' := by
  induction bs generalizing disk with
  | nil => exact ⟨disk, rfl, h, .refl sb disk⟩
  | cons b bs ih =>
    obtain ⟨disk1, hfree, h1, hdinode, hdata⟩ := bfree_spec h
    obtain ⟨disk2, hrest, h2, hkept⟩ := ih h1
    refine ⟨disk2, ?_, h2, .trans ⟨hdinode, hdata⟩ hkept⟩
    rw [List.foldlM_cons, hfree]
    exact hrest

theorem setAddr_eq_self (h : ip.addrs k = b) : setAddr ip k b = ip := by
  unfold setAddr
  rw [← h, Function.update_eq_self]

theorem truncDirect_spec (h : Owned sb disk (Function.update ino inum ip) []) (hi : inum < sb.ninodes)
    (ht : ip.type ≠ 0) (hk : k < NDIRECT)
    : ∃ disk', truncDirect sb (disk, ip) k = .ok (disk', setAddr ip k 0) ∧
      Owned sb disk' (Function.update ino inum (setAddr ip k 0)) [] ∧ Kept sb disk disk' := by
  unfold truncDirect
  dsimp only
  split
  . next hzero =>
    rw [setAddr_eq_self hzero]
    exact ⟨disk, rfl, h, .refl sb disk⟩
  . next hne =>
    have hown : own sb disk (Function.update ino inum ip) (inum, .data k) = ip.addrs k := by
      rw [own_update hi ht, slot_direct hk]
    have hclear : ∀ y, own sb disk (Function.update ino inum (setAddr ip k 0)) y =
        if y = (inum, .data k) then 0 else own sb disk (Function.update ino inum ip) y := by
      rintro ⟨i, s⟩
      by_cases hinum : i = inum
      . subst hinum
        have hset : own sb disk (Function.update ino i (setAddr ip k 0)) (i, s) = slot disk (setAddr ip k 0) s :=
          own_update hi ht
        rw [own_update hi ht, hset, slot_setAddr hk]
        simp
      . rw [own_update_of_ne hinum, own_update_of_ne hinum, if_neg (by simp [hinum])]
    have hheld : Owned sb disk (Function.update ino inum (setAddr ip k 0)) [ip.addrs k] := by
      refine ⟨?_, h.reserved⟩
      have := h.ledger.detach (x := (inum, .data k)) (by rwa [hown]) hclear
      rwa [hown] at this
    obtain ⟨disk1, hfree, h1, hdinode, hdata⟩ := bfree_spec hheld
    refine ⟨disk1, ?_, h1, hdinode, hdata⟩
    rw [hfree]
    rfl

def clearAddrs (ip : Dinode) (ks : List Nat) : Dinode :=
  { ip with addrs := fun j => if j ∈ ks then 0 else ip.addrs j }

theorem clearAddrs_cons (ip : Dinode) (k : Nat) (ks : List Nat)
    : clearAddrs (setAddr ip k 0) ks = clearAddrs ip (k :: ks) := by
  apply Dinode.ext' <;> try rfl
  intro j
  by_cases hj : j = k
  . simp [clearAddrs, setAddr, hj]
  . simp [clearAddrs, setAddr, hj]

theorem truncDirects_spec {ks : List Nat} (h : Owned sb disk (Function.update ino inum ip) []) (hi : inum < sb.ninodes)
    (ht : ip.type ≠ 0) (hks : ∀ k ∈ ks, k < NDIRECT)
    : ∃ disk', ks.foldlM (truncDirect sb) (disk, ip) = .ok (disk', clearAddrs ip ks) ∧
      Owned sb disk' (Function.update ino inum (clearAddrs ip ks)) [] ∧ Kept sb disk disk' := by
  induction ks generalizing disk ip with
  | nil =>
    have : clearAddrs ip [] = ip := by simp [clearAddrs]
    rw [this]
    exact ⟨disk, rfl, h, .refl sb disk⟩
  | cons k ks ih =>
    obtain ⟨disk1, hround, h1, hkept⟩ := truncDirect_spec h hi ht (hks k List.mem_cons_self)
    obtain ⟨disk2, hrest, h2, hkept'⟩ := ih h1 ht fun j hj => hks j (List.mem_cons_of_mem k hj)
    rw [clearAddrs_cons] at hrest h2
    refine ⟨disk2, ?_, h2, hkept.trans hkept'⟩
    rw [List.foldlM_cons, hround]
    exact hrest

-- The blocks that the table `a` lists.
def tableBlocks (a : Block) (js : List Nat) : List Nat :=
  (js.map fun j => get32 a (4 * j)).filter fun b => b ≠ 0

theorem truncIndirects_eq (a : Block) (js : List Nat) (disk : Disk)
    : js.foldlM (truncIndirect sb a) disk = (tableBlocks a js).foldlM (bfree sb) disk := by
  induction js generalizing disk with
  | nil => rfl
  | cons j js ih =>
    rw [List.foldlM_cons]
    unfold truncIndirect tableBlocks
    rw [List.map_cons]
    split
    . next hzero =>
      rw [List.filter_cons_of_neg (by simpa using hzero)]
      exact ih disk
    . next hne =>
      rw [List.filter_cons_of_pos (by simpa using hne), List.foldlM_cons]
      congr 1
      funext disk'
      exact ih disk'

-- The places that the table of the inode `inum` provides, and the table.
def tablePlaces (inum : Nat) : List (Nat × Slot) :=
  (List.range NINDIRECT).map (fun j => (inum, .data (NDIRECT + j))) ++ [(inum, .table)]

theorem mem_tablePlaces (x : Nat × Slot)
    : x ∈ tablePlaces inum ↔ x.1 = inum ∧ (x.2 = .table ∨ ∃ j < NINDIRECT, x.2 = .data (NDIRECT + j)) := by
  obtain ⟨i, s⟩ := x
  simp only [tablePlaces, List.mem_append, List.mem_map, List.mem_range, Prod.mk.injEq, List.mem_singleton]
  constructor
  . rintro (⟨j, hj, rfl, rfl⟩ | ⟨rfl, rfl⟩)
    . exact ⟨rfl, .inr ⟨j, hj, rfl⟩⟩
    . exact ⟨rfl, .inl rfl⟩
  . rintro ⟨rfl, rfl | ⟨j, hj, rfl⟩⟩
    . exact .inr ⟨rfl, rfl⟩
    . exact .inl ⟨j, hj, rfl, rfl⟩

theorem tablePlaces_nodup (inum : Nat) : (tablePlaces inum).Nodup := by
  unfold tablePlaces
  rw [List.nodup_append]
  refine ⟨?_, List.nodup_singleton _, ?_⟩
  . apply List.Nodup.map _ List.nodup_range
    intro j j' hjj
    simpa using hjj
  . simp

theorem slot_clearTable (s : Slot)
    : slot disk (setAddr ip NDIRECT 0) s =
      if s = .table ∨ ∃ j < NINDIRECT, s = .data (NDIRECT + j) then 0 else slot disk ip s := by
  cases s with
  | table => simp [slot, setAddr]
  | data bn =>
    by_cases hbn : bn < NDIRECT
    . have hnot : ¬ ((Slot.data bn) = .table ∨ ∃ j < NINDIRECT, (Slot.data bn) = .data (NDIRECT + j)) := by
        simp only [reduceCtorEq, Slot.data.injEq, false_or, not_exists, not_and]
        omega
      rw [if_neg hnot, slot_direct hbn, slot_direct hbn]
      simp only [setAddr, Function.update_of_ne (Nat.ne_of_lt hbn)]
    . have hcleared : slot disk (setAddr ip NDIRECT 0) (.data bn) = 0 :=
        slot_no_table (Nat.le_of_not_lt hbn) (by simp [setAddr])
      rw [hcleared]
      split
      . rfl
      . next hnot =>
        rw [slot_of_le]
        apply Nat.le_of_not_lt
        intro hlt
        refine hnot (.inr ⟨bn - NDIRECT, ?_, ?_⟩)
        . unfold MAXFILE at hlt
          omega
        . rw [Nat.add_sub_cancel' (Nat.le_of_not_lt hbn)]

theorem tablePlaces_blocks (hi : inum < sb.ninodes) (ht : ip.type ≠ 0) (hne : ip.addrs NDIRECT ≠ 0)
    : ((tablePlaces inum).filter fun y => own sb disk (Function.update ino inum ip) y ≠ 0).map
        (own sb disk (Function.update ino inum ip)) =
      tableBlocks (disk (ip.addrs NDIRECT)) (List.range NINDIRECT) ++ [ip.addrs NDIRECT] := by
  have htable : own sb disk (Function.update ino inum ip) (inum, .table) = ip.addrs NDIRECT := own_update hi ht
  have hdata : (List.range NINDIRECT).map (fun j => get32 (disk (ip.addrs NDIRECT)) (4 * j)) =
      ((List.range NINDIRECT).map fun j => (inum, Slot.data (NDIRECT + j))).map
        (own sb disk (Function.update ino inum ip)) := by
    rw [List.map_map]
    apply List.map_congr_left
    intro j hj
    have hj := List.mem_range.mp hj
    rw [Function.comp_apply, own_update hi ht, slot_indirect (Nat.le_add_right _ _) _ hne, Nat.add_sub_cancel_left]
    unfold MAXFILE
    omega
  unfold tablePlaces tableBlocks
  rw [List.filter_append, List.map_append, hdata]
  congr 1
  . rw [List.filter_map (l := List.map _ _)]
    rfl
  . rw [List.filter_cons_of_pos (by simpa [htable] using hne), List.filter_nil, List.map_singleton, htable]

theorem truncTable_spec (h : Owned sb disk (Function.update ino inum ip) []) (hi : inum < sb.ninodes) (ht : ip.type ≠ 0)
    : ∃ disk', truncTable sb disk ip = .ok (disk', setAddr ip NDIRECT 0) ∧
      Owned sb disk' (Function.update ino inum (setAddr ip NDIRECT 0)) [] ∧ Kept sb disk disk' := by
  unfold truncTable
  split
  . next hzero =>
    rw [setAddr_eq_self hzero]
    exact ⟨disk, rfl, h, .refl sb disk⟩
  . next hne =>
    have hset : ∀ s, own sb disk (Function.update ino inum (setAddr ip NDIRECT 0)) (inum, s) =
        slot disk (setAddr ip NDIRECT 0) s := fun s => own_update hi ht
    have hclear : ∀ y ∈ tablePlaces inum, own sb disk (Function.update ino inum (setAddr ip NDIRECT 0)) y = 0 := by
      rintro ⟨i, s⟩ hy
      obtain ⟨rfl, hs⟩ := (mem_tablePlaces _).mp hy
      rw [hset, slot_clearTable, if_pos hs]
    have hkeep : ∀ y, y ∉ tablePlaces inum → own sb disk (Function.update ino inum (setAddr ip NDIRECT 0)) y =
        own sb disk (Function.update ino inum ip) y := by
      rintro ⟨i, s⟩ hy
      rw [mem_tablePlaces] at hy
      by_cases hinum : i = inum
      . subst hinum
        rw [own_update hi ht, hset, slot_clearTable, if_neg (fun hs => hy ⟨rfl, hs⟩)]
      . rw [own_update_of_ne hinum, own_update_of_ne hinum]
    have hblocks : ((tablePlaces inum).filter fun y => own sb disk (Function.update ino inum ip) y ≠ 0).map
        (own sb disk (Function.update ino inum ip)) =
          tableBlocks (disk (ip.addrs NDIRECT)) (List.range NINDIRECT) ++ [ip.addrs NDIRECT] :=
      tablePlaces_blocks hi ht hne
    have hheld : Owned sb disk (Function.update ino inum (setAddr ip NDIRECT 0))
        (tableBlocks (disk (ip.addrs NDIRECT)) (List.range NINDIRECT) ++ [ip.addrs NDIRECT]) := by
      refine ⟨?_, h.reserved⟩
      have := h.ledger.detachAll (tablePlaces_nodup inum) hclear hkeep
      rwa [hblocks, List.append_nil] at this
    obtain ⟨disk1, hfrees, h1, hkept⟩ := bfreeAll_spec hheld
    obtain ⟨disk2, hfree, h2, hdinode, hdata⟩ := bfree_spec h1
    refine ⟨disk2, ?_, h2, hkept.trans ⟨hdinode, hdata⟩⟩
    rw [truncIndirects_eq, hfrees, ok_bind, hfree]
    rfl

theorem own_of_addrs (hip : ip.addrs = fun _ => 0) (s : Slot)
    : own sb disk (Function.update ino inum ip) (inum, s) = 0 := by
  have hslot : slot disk ip s = 0 := by
    cases s <;> simp [slot, hip]
  simp [own, hslot]

theorem Owned.replace (h : Owned sb disk (Function.update ino inum ip) held)
    (hip : ∀ s, own sb disk (Function.update ino inum ip) (inum, s) = 0) (hip' : ip'.addrs = fun _ => 0)
    : Owned sb disk (Function.update ino inum ip') held := by
  refine ⟨?_, h.reserved⟩
  apply h.ledger.congr _ (fun _ _ _ => Iff.rfl)
  rintro ⟨i, s⟩
  by_cases hi : i = inum
  . subst hi
    rw [own_of_addrs hip', hip]
  . rw [own_update_of_ne hi, own_update_of_ne hi]

theorem Owned.blank (h : Owned sb disk ino held) (hfree : (ino inum).type = 0) (hip : ip.addrs = fun _ => 0)
    : Owned sb disk (Function.update ino inum ip) held := by
  have hself : Owned sb disk (Function.update ino inum (ino inum)) held := by
    rw [Function.update_eq_self]
    exact h
  apply hself.replace _ hip
  intro s
  simp [own, hfree]

theorem WellFormed.update {s : State} (hs : WellFormed sb s) (hi : inum < sb.ninodes) (hkept : Kept sb s.disk disk1)
    (howned : Owned sb disk1 (Function.update s.ino inum ip) []) (hfits : ip.Fits) (hsize : ip.size = 0)
    : WellFormed sb ⟨iupdate sb disk1 inum ip, Function.update s.ino inum ip⟩ where
  owned := howned.iupdate hi
  coherent := by
    intro i hlt
    dsimp only
    by_cases hne : i = inum
    . rw [hne, dinode_iupdate hfits, Function.update_self]
    . rw [dinode_iupdate_of_ne hne, hkept.dinode i hlt, hs.coherent i hlt, Function.update_of_ne hne]
  mapped := by
    intro i hlt ht bn hbn
    dsimp only at ht hbn ⊢
    by_cases hne : i = inum
    . rw [hne, Function.update_self, hsize] at hbn
      exact absurd hbn (Nat.not_lt_zero _)
    . rw [Function.update_of_ne hne] at ht hbn ⊢
      rw [slot_of_own hlt ht]
      . exact hs.mapped i hlt ht bn hbn
      . intro sl hsl
        have := hs.owned.le hsl
        have hmeta := bmapstart_lt sb
        rw [iupdate_of_le hi (by omega), hkept.data _ this]

-- What is left of the inode.
def truncated (ip : Dinode) : Dinode :=
  { ip with size := 0, addrs := fun _ => 0 }

theorem clearAddrs_all (hfits : ip.Fits)
    : { setAddr (clearAddrs ip (List.range NDIRECT)) NDIRECT 0 with size := 0 } = truncated ip := by
  apply Dinode.ext' <;> try rfl
  intro k
  simp only [setAddr, clearAddrs, truncated, Function.update_apply, List.mem_range]
  split
  . rfl
  . split
    . rfl
    . exact hfits.rest k (by omega)

theorem truncated_fits (h : ip.Fits) : (truncated ip).Fits where
  type := h.type
  major := h.major
  minor := h.minor
  nlink := h.nlink
  size := by simp [truncated]
  addrs k := by simp [truncated]
  rest _ _ := rfl

theorem itrunc_spec {s : State} (hs : WellFormed sb s) (hi : inum < sb.ninodes) (ht : (s.ino inum).type ≠ 0)
    : ∃ disk', itrunc sb s.disk inum (s.ino inum) = .ok (disk', truncated (s.ino inum)) ∧
      WellFormed sb ⟨disk', Function.update s.ino inum (truncated (s.ino inum))⟩ := by
  have h0 : Owned sb s.disk (Function.update s.ino inum (s.ino inum)) [] := by
    rw [Function.update_eq_self]
    exact hs.owned
  have hks : ∀ k ∈ List.range NDIRECT, k < NDIRECT := fun k hk => List.mem_range.mp hk
  obtain ⟨disk1, hdirect, h1, hkept1⟩ := truncDirects_spec h0 hi ht hks
  obtain ⟨disk2, htable, h2, hkept2⟩ := truncTable_spec h1 hi ht
  have hall := clearAddrs_all (hs.fits hi)
  refine ⟨iupdate sb disk2 inum (truncated (s.ino inum)), ?_, ?_⟩
  . unfold itrunc
    rw [hdirect, ok_bind]
    dsimp only
    rw [htable, ok_bind]
    dsimp only
    rw [hall]
    rfl
  . apply hs.update hi (hkept1.trans hkept2) _ (truncated_fits (hs.fits hi)) rfl
    rw [← hall]
    apply h2.of_addrs
    . intro i
      simp only [Function.update_apply]
      split <;> rfl
    . intro i
      simp only [Function.update_apply]
      split <;> rfl

theorem ifree_spec {s : State} (hs : WellFormed sb s) (hi : inum < sb.ninodes) (ht : (s.ino inum).type ≠ 0)
    : ∃ disk', ifree sb s.disk inum (s.ino inum) = .ok disk' ∧
      WellFormed sb ⟨disk', Function.update s.ino inum { truncated (s.ino inum) with type := 0 }⟩ := by
  obtain ⟨disk1, htrunc, h1⟩ := itrunc_spec hs hi ht
  have hfits := truncated_fits (hs.fits hi)
  have hfits' : ({ truncated (s.ino inum) with type := 0 } : Dinode).Fits :=
    ⟨show 0 < 2 ^ 16 by decide, hfits.major, hfits.minor, hfits.nlink, hfits.size, hfits.addrs, hfits.rest⟩
  have hidem : ∀ ip, Function.update (Function.update s.ino inum (truncated (s.ino inum))) inum ip =
      Function.update s.ino inum ip := fun _ => Function.update_idem _ _ _
  refine ⟨iupdate sb disk1 inum { truncated (s.ino inum) with type := 0 }, ?_, ?_⟩
  . unfold ifree
    rw [htrunc, ok_bind]
    rfl
  . have howned : Owned sb disk1 (Function.update (Function.update s.ino inum (truncated (s.ino inum))) inum
        { truncated (s.ino inum) with type := 0 }) [] := by
      rw [hidem]
      exact h1.owned.replace (fun sl => own_of_addrs rfl sl) rfl
    have := h1.update hi (.refl sb disk1) howned hfits' rfl
    rwa [hidem] at this

theorem ialloc_spec {s : State} {type : Nat} (hs : WellFormed sb s) (ht : type < 2 ^ 16)
    (h : ialloc sb s.disk type = .ok (disk', inum))
    : 0 < inum ∧ inum < sb.ninodes ∧ (s.ino inum).type = 0 ∧
      WellFormed sb ⟨disk', Function.update s.ino inum { Dinode.zero with type := type }⟩ := by
  unfold ialloc at h
  split at h
  . next i hfind =>
    cases h
    have hmem := List.mem_range'_1.mp (List.mem_of_find?_eq_some hfind)
    have hi : inum < sb.ninodes := by omega
    have hfree : (s.ino inum).type = 0 := by
      rw [← hs.coherent inum hi]
      simpa using List.find?_some hfind
    refine ⟨by omega, hi, hfree, ?_⟩
    apply hs.update hi (.refl sb s.disk) _ _ rfl
    . exact hs.owned.blank hfree rfl
    . constructor <;> simp [Dinode.zero]
      exact ht
  . cases h

end Xv6.Fs
