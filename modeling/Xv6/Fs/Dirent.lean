import Xv6.Fs.Array
import Xv6.Lib.Slots

/-!
The entries of a directory, and what the two loops of `dirlookup` and `dirlink` find in them.
-/

namespace Xv6.Fs

open Bytes

variable {sb : Superblock} {s : State} {i j m n dinum fuel : Nat} {c p q name : List UInt8} {de : Dirent}

theorem headD_strncpy (n : Nat) (p : List UInt8) : (strncpy (n + 1) p).headD 0 = p.headD 0 := by
  unfold strncpy
  split
  . next hz => rw [hz, List.replicate_succ, List.headD_cons]
  . rw [List.headD_cons]

theorem tail_strncpy (hp : p.headD 0 ≠ 0) : (strncpy (n + 1) p).tail = strncpy n p.tail := by
  rw [strncpy, if_neg hp, List.tail_cons]

@[simp]
theorem length_strncpy (n : Nat) (p : List UInt8) : (strncpy n p).length = n := by
  induction n generalizing p with
  | zero => rfl
  | succ n ih =>
    unfold strncpy
    split
    . simp
    . simp [ih]

theorem strncpy_strncpy (n : Nat) (p : List UInt8) : strncpy n (strncpy n p) = strncpy n p := by
  induction n generalizing p with
  | zero => rfl
  | succ n ih =>
    by_cases hp : p.headD 0 = 0
    . rw [strncpy, headD_strncpy, if_pos hp, strncpy, if_pos hp]
    . rw [strncpy, headD_strncpy, if_neg hp, tail_strncpy hp, ih, strncpy, if_neg hp]

-- The bytes that `strncpy` stores are the ones that `strncmp` looks at.
theorem strncmp_eq_zero (n : Nat) (p q : List UInt8) : strncmp n p q = 0 ↔ strncpy n p = strncpy n q := by
  induction n generalizing p q with
  | zero => simp [strncmp, strncpy]
  | succ n ih =>
    unfold strncmp
    split
    . next heq =>
      rw [ih, strncpy, if_neg heq.1, strncpy, ← heq.2, if_neg heq.1, List.cons.injEq]
      simp
    . next hne =>
      constructor
      . intro h
        have hhead : p.headD 0 = q.headD 0 := by
          apply UInt8.toNat_inj.mp
          omega
        have hz : p.headD 0 = 0 := by
          by_contra hp
          exact hne ⟨hp, hhead⟩
        rw [strncpy, if_pos hz, strncpy, ← hhead, if_pos hz]
      . intro h
        have hhead : p.headD 0 = q.headD 0 := by
          rw [← headD_strncpy n p, h, headD_strncpy]
        rw [hhead]
        omega

-- The name under which `name` is stored, the first `DIRSIZ` bytes of it.
def key (name : List UInt8) : List UInt8 :=
  strncpy DIRSIZ name

theorem namecmp_eq_zero (p q : List UInt8) : namecmp p q = 0 ↔ key p = key q :=
  strncmp_eq_zero DIRSIZ p q

theorem key_key (name : List UInt8) : key (key name) = key name :=
  strncpy_strncpy DIRSIZ name

theorem Dirent.length_toBytes (hname : de.name.length = DIRSIZ) : de.toBytes.length = DIRENT := by
  simp [Dirent.toBytes, hname, DIRSIZ, DIRENT]

theorem Dirent.ofBytes_toBytes (hinum : de.inum < 2 ^ 16) : Dirent.ofBytes de.toBytes = de := by
  have : (byte de.inum 0).toNat + 256 * (byte de.inum 1).toNat = de.inum := by
    simp only [byte_toNat]
    omega
  unfold Dirent.ofBytes Dirent.toBytes
  simp only [List.getD_cons_zero, List.getD_cons_succ, List.drop_succ_cons, List.drop_zero, this]

-- The entry `j` of the directory whose bytes are `c`.
def entry (c : List UInt8) (j : Nat) : Dirent :=
  Dirent.ofBytes ((c.drop (DIRENT * j)).take DIRENT)

def entryKey (c : List UInt8) (j : Nat) : List UInt8 :=
  key (entry c j).name

def entryInum (c : List UInt8) (j : Nat) : Nat :=
  (entry c j).inum

theorem overwrite_length (c : List UInt8) (src : Memory) (off n : Nat)
    : (overwrite c src off n).length = max c.length (off + n) := by
  simp [overwrite]

theorem entry_overwrite (hc : c.length = DIRENT * m) (hj : j ≤ m) (hname : de.name.length = DIRSIZ)
    (hinum : de.inum < 2 ^ 16) (hi : i < max m (j + 1))
    : entry (overwrite c (fun k => de.toBytes.getD k 0) (DIRENT * j) DIRENT) i = if i = j then de else entry c i := by
  have hlen := Dirent.length_toBytes hname
  unfold entry
  unfold DIRENT at *
  split
  . next hij =>
    subst hij
    refine Eq.trans ?_ (Dirent.ofBytes_toBytes hinum)
    congr 1
    apply List.ext_getElem
    . simp only [List.length_take, List.length_drop, overwrite_length, hlen]
      omega
    . intro k h1 h2
      have hk : k < 16 := by omega
      simp [overwrite, hk, h2]
  . next hij =>
    congr 1
    apply List.ext_getElem
    . simp only [List.length_take, List.length_drop, overwrite_length, hc]
      omega
    . intro k h1 h2
      simp only [List.length_take, List.length_drop] at h2
      have hout : ¬ (16 * j ≤ 16 * i + k ∧ 16 * i + k < 16 * j + 16) := by omega
      have hin : 16 * i + k < c.length := by omega
      simp [overwrite, hout, hin]

-- A directory in a well-formed state: its size is a multiple of that of an entry.
structure IsDir (sb : Superblock) (s : State) (dinum : Nat) : Prop where
  lt : dinum < sb.ninodes
  type : (s.ino dinum).type = T_DIR
  size : DIRENT ∣ (s.ino dinum).size

instance (s : State) (dinum : Nat) : Decidable (IsDir sb s dinum) :=
  decidable_of_iff (dinum < sb.ninodes ∧ (s.ino dinum).type = T_DIR ∧ DIRENT ∣ (s.ino dinum).size)
    ⟨fun h => ⟨h.1, h.2.1, h.2.2⟩, fun h => ⟨h.lt, h.type, h.size⟩⟩

def State.dir (s : State) (dinum : Nat) : List UInt8 :=
  content s.disk (s.ino dinum)

-- The number of its entries, in use or free.
def State.nent (s : State) (dinum : Nat) : Nat :=
  (s.ino dinum).size / DIRENT

namespace IsDir

theorem ne_zero (h : IsDir sb s dinum) : (s.ino dinum).type ≠ 0 := by
  rw [h.type]
  decide

theorem ne_dev (h : IsDir sb s dinum) : (s.ino dinum).type ≠ T_DEV := by
  rw [h.type]
  decide

theorem size_eq (h : IsDir sb s dinum) : (s.ino dinum).size = DIRENT * s.nent dinum :=
  (Nat.mul_div_cancel' h.size).symm

theorem le_size (h : IsDir sb s dinum) (hj : j ≤ s.nent dinum) : DIRENT * j ≤ (s.ino dinum).size := by
  rw [h.size_eq]
  exact Nat.mul_le_mul_left _ hj

theorem dir_length (h : IsDir sb s dinum) : (s.dir dinum).length = DIRENT * s.nent dinum := by
  rw [State.dir, content_length, h.size_eq]

end IsDir

theorem readi_entry (devsw : Devsw) (hs : WellFormed sb s) (hd : IsDir sb s dinum) (hj : j < s.nent dinum)
    : ∃ r, readi sb devsw s.disk (s.ino dinum) (DIRENT * j) DIRENT = .ok r ∧ r.disk = s.disk ∧ r.ip = s.ino dinum ∧
      r.ret = DIRENT ∧ Dirent.ofBytes r.data = entry (s.dir dinum) j := by
  have hmax := hs.size_le hd.lt hd.ne_zero
  have hsize := hd.size_eq
  have hfits : DIRENT * j + DIRENT ≤ (s.ino dinum).size := by
    unfold DIRENT at *
    omega
  have hbig : MAXFILE * BSIZE < 2 ^ 32 := by decide
  rw [readi_spec hs hd.lt hd.ne_zero hd.ne_dev (by omega) (by decide), if_pos ⟨by omega, by omega⟩]
  refine ⟨_, rfl, rfl, rfl, ?_, rfl⟩
  dsimp only
  rw [Nat.min_eq_left (by omega)]

-- `dirlookup` finds the first entry in use with the name, and changes nothing.
theorem dirlookupLoop_spec (devsw : Devsw) (name : List UInt8) (hs : WellFormed sb s) (hd : IsDir sb s dinum)
    (hj : j ≤ s.nent dinum) (hfuel : s.nent dinum - j < fuel)
    : dirlookupLoop sb devsw name fuel s.disk (s.ino dinum) (DIRENT * j) =
      .ok (s.disk, s.ino dinum, ((List.range' j (s.nent dinum - j)).find? fun k =>
        entryInum (s.dir dinum) k ≠ 0 ∧ entryKey (s.dir dinum) k = key name).map fun k =>
          (entryInum (s.dir dinum) k, DIRENT * k)) := by
  induction fuel generalizing j with
  | zero => omega
  | succ fuel ih =>
    have hsize := hd.size_eq
    unfold dirlookupLoop
    by_cases hlt : j < s.nent dinum
    . have hoff : DIRENT * j < (s.ino dinum).size := by
        rw [hsize]
        exact Nat.mul_lt_mul_of_pos_left hlt (by decide)
      obtain ⟨r, hr, hdisk, hip, hret, hde⟩ := readi_entry devsw hs hd hlt
      have hrange : List.range' j (s.nent dinum - j) = j :: List.range' (j + 1) (s.nent dinum - (j + 1)) := by
        rw [show s.nent dinum - j = s.nent dinum - (j + 1) + 1 by omega, List.range'_succ]
      have hcond : ((Dirent.ofBytes r.data).inum ≠ 0 ∧ namecmp name (Dirent.ofBytes r.data).name = 0) ↔
          entryInum (s.dir dinum) j ≠ 0 ∧ entryKey (s.dir dinum) j = key name := by
        rw [hde, namecmp_eq_zero, eq_comm (a := key name)]
        rfl
      rw [if_pos hoff, hr, hrange, List.find?_cons]
      simp only [bind, Except.bind, hret, ne_eq, not_true_eq_false, if_false]
      by_cases hfound : entryInum (s.dir dinum) j ≠ 0 ∧ entryKey (s.dir dinum) j = key name
      . rw [if_pos (hcond.mpr hfound)]
        simp only [hdisk, hip, hde, decide_eq_true hfound, Option.map_some]
        rfl
      . rw [if_neg (fun hc => hfound (hcond.mp hc))]
        simp only [hdisk, hip, decide_eq_false hfound]
        rw [← Nat.mul_succ]
        exact ih (by omega) (by omega)
    . have hend : s.nent dinum - j = 0 := by omega
      have hoff : ¬ DIRENT * j < (s.ino dinum).size := by
        rw [hsize]
        exact Nat.not_lt.mpr (Nat.mul_le_mul_left _ (by omega))
      rw [if_neg hoff, hend]
      rfl

theorem dirlookup_spec (devsw : Devsw) (hs : WellFormed sb s) (hd : IsDir sb s dinum) (name : List UInt8)
    : dirlookup sb devsw s.disk (s.ino dinum) name =
      .ok (s.disk, s.ino dinum, (Slots.find (s.nent dinum) (entryKey (s.dir dinum)) (entryInum (s.dir dinum))
        (key name)).map fun j => (entryInum (s.dir dinum) j, DIRENT * j)) := by
  have hle : s.nent dinum ≤ (s.ino dinum).size := Nat.div_le_self _ _
  have hfuel : s.nent dinum - 0 < (s.ino dinum).size + 1 := by omega
  have := dirlookupLoop_spec devsw name hs hd (Nat.zero_le _) hfuel
  rw [Nat.mul_zero, Nat.sub_zero, ← List.range_eq_range'] at this
  rw [dirlookup, if_neg (not_not_intro hd.type), this]
  rfl

-- The slot that `dirlink` takes: the first free one or, if there is none, the end of the directory.
def freeSlot (m : Nat) (c : List UInt8) : Nat :=
  ((List.range m).find? fun j => entryInum c j = 0).getD m

theorem freeSlot_le (m : Nat) (c : List UInt8) : freeSlot m c ≤ m := by
  unfold freeSlot
  cases hfind : (List.range m).find? fun j => entryInum c j = 0 with
  | none => exact le_rfl
  | some j => exact Nat.le_of_lt (List.mem_range.mp (List.mem_of_find?_eq_some hfind))

theorem freeSlot_free (h : freeSlot m c < m) : entryInum c (freeSlot m c) = 0 := by
  unfold freeSlot at *
  cases hfind : (List.range m).find? fun j => entryInum c j = 0 with
  | none =>
    rw [hfind] at h
    exact absurd h (Nat.lt_irrefl m)
  | some j => simpa using List.find?_some hfind

theorem dirlinkLoop_spec (devsw : Devsw) (hs : WellFormed sb s) (hd : IsDir sb s dinum) (hj : j ≤ s.nent dinum)
    (hfuel : s.nent dinum - j < fuel)
    : dirlinkLoop sb devsw fuel s.disk (s.ino dinum) (DIRENT * j) =
      .ok (s.disk, s.ino dinum, DIRENT * (((List.range' j (s.nent dinum - j)).find? fun k =>
        entryInum (s.dir dinum) k = 0).getD (s.nent dinum))) := by
  induction fuel generalizing j with
  | zero => omega
  | succ fuel ih =>
    have hsize := hd.size_eq
    unfold dirlinkLoop
    by_cases hlt : j < s.nent dinum
    . have hoff : DIRENT * j < (s.ino dinum).size := by
        rw [hsize]
        exact Nat.mul_lt_mul_of_pos_left hlt (by decide)
      obtain ⟨r, hr, hdisk, hip, hret, hde⟩ := readi_entry devsw hs hd hlt
      have hrange : List.range' j (s.nent dinum - j) = j :: List.range' (j + 1) (s.nent dinum - (j + 1)) := by
        rw [show s.nent dinum - j = s.nent dinum - (j + 1) + 1 by omega, List.range'_succ]
      have hinum : (Dirent.ofBytes r.data).inum = entryInum (s.dir dinum) j := by
        rw [hde]
        rfl
      rw [if_pos hoff, hr, hrange, List.find?_cons]
      simp only [bind, Except.bind, hret, ne_eq, not_true_eq_false, if_false, hinum]
      by_cases hfree : entryInum (s.dir dinum) j = 0
      . rw [if_pos hfree]
        simp only [hdisk, hip, decide_eq_true hfree, Option.getD_some]
      . rw [if_neg hfree]
        simp only [hdisk, hip, decide_eq_false hfree]
        rw [← Nat.mul_succ]
        exact ih (by omega) (by omega)
    . have hend : s.nent dinum - j = 0 := by omega
      have hj : j = s.nent dinum := by omega
      have hoff : ¬ DIRENT * j < (s.ino dinum).size := by
        rw [hsize]
        exact Nat.not_lt.mpr (Nat.mul_le_mul_left _ (by omega))
      rw [if_neg hoff, hend, ← hj]
      rfl

theorem dirlinkLoop_freeSlot (devsw : Devsw) (hs : WellFormed sb s) (hd : IsDir sb s dinum)
    : dirlinkLoop sb devsw ((s.ino dinum).size + 1) s.disk (s.ino dinum) 0 =
      .ok (s.disk, s.ino dinum, DIRENT * freeSlot (s.nent dinum) (s.dir dinum)) := by
  have hle : s.nent dinum ≤ (s.ino dinum).size := Nat.div_le_self _ _
  have hfuel : s.nent dinum - 0 < (s.ino dinum).size + 1 := by omega
  have := dirlinkLoop_spec devsw hs hd (Nat.zero_le _) hfuel
  rw [Nat.mul_zero, Nat.sub_zero, ← List.range_eq_range'] at this
  rw [this]
  rfl

end Xv6.Fs
