import Xv6.Fs.Dirent
import Xv6.Mkfs.WellFormed

/-!
The image read by the kernel: `dirlookup` finds the files in the root directory, and `readi` returns their bytes.
-/

namespace Xv6.Mkfs

open Bytes Fs Outcome

variable {t t1 : State} {devsw : Devsw} {files : List File} {c : Nat → List UInt8} {disk : Disk} {dp : Dinode}
  {name : List UInt8} {e : Nat → Dirent} {i j k m n off fuel : Nat}

-- The entry with the name and the ones before it are read, whatever the rest of the directory is.
theorem dirlookupLoop_first (hread : ∀ j ≤ m, readi sb devsw disk dp (DIRENT * j) DIRENT =
      .ok ⟨disk, dp, DIRENT, (e j).toBytes⟩)
    (hinum : ∀ j ≤ m, 0 < (e j).inum ∧ (e j).inum < 2 ^ 16) (hmiss : ∀ j < m, key (e j).name ≠ key name)
    (hhit : key (e m).name = key name) (hsize : DIRENT * m < dp.size) (hj : j ≤ m) (hfuel : m - j < fuel)
    : dirlookupLoop sb devsw name fuel disk dp (DIRENT * j) = .ok (disk, dp, some ((e m).inum, DIRENT * m)) := by
  induction fuel generalizing j with
  | zero => omega
  | succ fuel ih =>
    have hoff : DIRENT * j < dp.size := Nat.lt_of_le_of_lt (Nat.mul_le_mul_left _ hj) hsize
    have hne : (e j).inum ≠ 0 := Nat.ne_of_gt (hinum j hj).1
    unfold dirlookupLoop
    rw [if_pos hoff, hread j hj, ok_bind]
    dsimp only
    rw [if_neg (not_not_intro rfl), Dirent.ofBytes_toBytes (hinum j hj).2]
    by_cases hlast : j = m
    . subst hlast
      rw [if_pos ⟨hne, (namecmp_eq_zero _ _).mpr hhit.symm⟩]
    . rw [if_neg fun h => hmiss j (by omega) ((namecmp_eq_zero _ _).mp h.2).symm, ← Nat.mul_succ]
      exact ih (by omega) (by omega)

theorem dirents_entry {es : List Dirent} {de : Dirent} (hes : ∀ de ∈ es, de.name.length = DIRSIZ) (hj : es[j]? = some de)
    : ((es.flatMap Dirent.toBytes).drop (DIRENT * j)).take DIRENT = de.toBytes := by
  induction es generalizing j with
  | nil => cases hj
  | cons head es ih =>
    have hlen := Dirent.length_toBytes (hes head List.mem_cons_self)
    rw [List.flatMap_cons]
    cases j with
    | zero =>
      cases hj
      rw [Nat.mul_zero, List.drop_zero, List.take_left' hlen]
    | succ j =>
      rw [Nat.mul_succ, Nat.add_comm, ← List.drop_drop, List.drop_left' hlen]
      exact ih (fun de' hmem => hes de' (List.mem_cons_of_mem head hmem)) hj

theorem strncpy_take (n : Nat) (p : List UInt8) : strncpy n (p.take n) = strncpy n p := by
  induction n generalizing p with
  | zero => rfl
  | succ n ih =>
    cases p with
    | nil => rfl
    | cons b p =>
      by_cases hb : b = 0
      . simp [strncpy, hb]
      . simp [strncpy, hb, ih]

theorem key_take (name : List UInt8) : key (name.take DIRSIZ) = key name :=
  strncpy_take DIRSIZ name

theorem Laid.fixed_mapped (h : Laid t c) (hpos : 0 < i) (hi : i < t.freeinode) (hk : k < (c i).length)
    : slot t.fixed.image (dinode sb t.fixed.image i) (.data (k / BSIZE)) ≠ 0 := by
  have hsize := h.size_eq hpos hi
  rw [h.fixed_data hpos hi]
  apply h.mapped hpos hi
  unfold BSIZE
  omega

-- The bytes of an inode are the same after `fixroot`, up to its size before.
theorem Laid.fixed_byte (h : Laid t c) (hpos : 0 < i) (hi : i < t.freeinode) (hk : k < (c i).length)
    : fileByte t.fixed.image (dinode sb t.fixed.image i) k = (c i)[k] := by
  have hroot : ROOTINO < room.ninodes := by decide
  have hmapped := h.fixed_mapped hpos hi hk
  rw [h.fixed_data hpos hi] at hmapped
  have hle : room.bmapstart ≤ slot t.disk (dinode room t.disk i) (.data (k / BSIZE)) :=
    Nat.le_trans (Nat.le_of_lt (bmapstart_lt room)) (Owned.slot_range h.wf.owned (h.live hpos hi) hmapped).1
  have hdata : t.fixed.image (slot t.disk (dinode room t.disk i) (.data (k / BSIZE))) =
      t.disk (slot t.disk (dinode room t.disk i) (.data (k / BSIZE))) := iupdate_of_le hroot hle
  have hbyte : (Fs.content t.disk (dinode room t.disk i))[k]? = some ((c i)[k]) := by
    rw [h.content i hpos hi, List.getElem?_eq_getElem hk]
  rw [Fs.content, List.getElem?_map, List.getElem?_range (by rw [h.size_eq hpos hi]; exact hk)] at hbyte
  unfold fileByte
  rw [h.fixed_data hpos hi, hdata]
  exact Option.some.inj hbyte

theorem Laid.fixed_size_le (h : Laid t c) (hpos : 0 < i) (hi : i < t.freeinode)
    : (c i).length ≤ (dinode sb t.fixed.image i).size := by
  have hlive := h.live hpos hi
  have hmax := h.wf.size_le hlive.1 hlive.2
  have hsize := h.size_eq hpos hi
  rw [h.fixed_dinode]
  split
  . next hroot =>
    rw [hroot] at hmax hsize ⊢
    simp only [rounded, hsize] at hmax ⊢
    unfold MAXFILE NDIRECT NINDIRECT BSIZE at *
    omega
  . omega

theorem Laid.fixed_part (h : Laid t c) (hpos : 0 < i) (hi : i < t.freeinode) (hin : off + n ≤ (c i).length)
    : ((Fs.content t.fixed.image (dinode sb t.fixed.image i)).drop off).take n = ((c i).drop off).take n := by
  have hsize := h.fixed_size_le hpos hi
  apply List.ext_getElem
  . simp only [List.length_take, List.length_drop, content_length]
    omega
  . intro k h1 h2
    simp only [List.length_take, List.length_drop] at h2
    have hbyte := h.fixed_byte hpos hi (show off + k < (c i).length by omega)
    simpa [Fs.content] using hbyte

-- The inode `inum` of the image is a file with the bytes `l`.
structure Holds (t : State) (devsw : Devsw) (inum : Nat) (l : List UInt8) : Prop where
  type : (dinode sb t.image inum).type = T_FILE
  size : (dinode sb t.image inum).size = l.length
  read : ∀ off n, off < 2 ^ 32 → n < 2 ^ 32 → readi sb devsw t.image (dinode sb t.image inum) off n =
    if off ≤ l.length ∧ off + n < 2 ^ 32 then
      .ok ⟨t.image, dinode sb t.image inum, (min n (l.length - off) : Nat), (l.drop off).take n⟩
    else .ok ⟨t.image, dinode sb t.image inum, -1, []⟩

theorem Laid.fixed_holds (h : Laid t c) (hpos : 0 < i) (hi : i < t.freeinode) (hne : i ≠ ROOTINO)
    : Holds t.fixed devsw i (c i) := by
  have hlive := h.live hpos hi
  have hdinode : dinode sb t.fixed.image i = dinode room t.disk i := by
    rw [h.fixed_dinode, if_neg hne]
  have hsize : (dinode sb t.fixed.image i).size = (c i).length := by
    rw [hdinode, h.size_eq hpos hi]
  have htype : (dinode sb t.fixed.image i).type = T_FILE := by
    rw [hdinode, h.kind i hpos hi, Mkfs.kind, if_neg hne]
  have hcontent : Fs.content t.fixed.image (dinode sb t.fixed.image i) = c i := by
    have hpart := h.fixed_part hpos hi (show 0 + (c i).length ≤ (c i).length by omega)
    rw [List.drop_zero, List.drop_zero, List.take_length, List.take_of_length_le (by rw [content_length, hsize])] at hpart
    exact hpart
  have hmax : (dinode sb t.fixed.image i).size ≤ MAXFILE * BSIZE := by
    rw [hdinode]
    exact h.wf.size_le hlive.1 hlive.2
  refine ⟨htype, hsize, ?_⟩
  intro off n hoff hn
  rw [readi_of_mapped (by rw [htype]; decide) hmax hoff hn, hcontent, hsize]
  intro k _ hk
  exact h.fixed_mapped hpos hi (by omega)

theorem Laid.fixed_root_type (h : Laid t c) (hi : ROOTINO < t.freeinode)
    : (dinode sb t.fixed.image ROOTINO).type = T_DIR := by
  rw [h.fixed_dinode, if_pos rfl, rounded]
  dsimp only
  rw [h.kind ROOTINO (by decide) hi]
  rfl

def entryAt (files : List File) (j : Nat) : Dirent :=
  (entries files).getD j ⟨0, []⟩

theorem entryAt_eq (hj : j < files.length + 2) : (entries files)[j]? = some (entryAt files j) := by
  rw [entryAt, List.getD_eq_getElem?_getD, List.getElem?_eq_getElem (by rw [entries_length]; exact hj), Option.getD_some]

theorem Laid.fixed_entry (h : Laid t (contents files)) (hfi : t.freeinode = files.length + 2)
    (hlen : files.length ≤ maxfiles) (hj : j < files.length + 2)
    : readi sb devsw t.fixed.image (dinode sb t.fixed.image ROOTINO) (DIRENT * j) DIRENT =
      .ok ⟨t.fixed.image, dinode sb t.fixed.image ROOTINO, DIRENT, (entryAt files j).toBytes⟩ := by
  have hmax : maxfiles = 206 := by decide
  have hpos : 0 < ROOTINO := by decide
  have hi : ROOTINO < t.freeinode := by
    unfold ROOTINO
    omega
  have hsize := h.fixed_size_le hpos hi
  have hroot : (dinode sb t.fixed.image ROOTINO).size = (DIRENT * (files.length + 2) / BSIZE + 1) * BSIZE % 2 ^ 32 := by
    rw [h.fixed_dinode, if_pos rfl, rounded, h.root_size hfi]
  have hdev : (dinode sb t.fixed.image ROOTINO).type ≠ T_DEV := by
    rw [h.fixed_root_type hi]
    decide
  have hin : DIRENT * j + DIRENT ≤ (contents files ROOTINO).length := by
    rw [root_length]
    unfold DIRENT
    omega
  have hle : (contents files ROOTINO).length ≤ 16 * 208 := by
    rw [root_length]
    unfold DIRENT
    omega
  rw [readi_of_mapped hdev, if_pos, h.fixed_part hpos hi hin, Nat.min_eq_left (by omega)]
  . rw [contents, if_pos rfl, dirents_entry (fun de hde => entries_name hde) (entryAt_eq hj)]
  . omega
  . rw [hroot]
    unfold MAXFILE NDIRECT NINDIRECT BSIZE DIRENT
    omega
  . omega
  . decide
  . intro k _ hk
    exact h.fixed_mapped hpos hi (by omega)

-- The names in the root directory.
def names (files : List File) : List (List UInt8) :=
  [0x2e] :: [0x2e, 0x2e] :: files.map File.target

theorem names_length (files : List File) : (names files).length = files.length + 2 := by
  simp [names]

theorem entryAt_name (hj : j < files.length + 2)
    : ((names files).map key)[j]? = some (key (entryAt files j).name) := by
  have hentry := entryAt_eq hj
  match j, hj with
  | 0, _ => exact congrArg some (key_key [0x2e]).symm
  | 1, _ => exact congrArg some (key_key [0x2e, 0x2e]).symm
  | k + 2, hk =>
    simp only [entries, List.getElem?_cons_succ, List.getElem?_mapIdx] at hentry
    simp only [names, List.map_cons, List.getElem?_cons_succ, List.getElem?_map]
    cases hfile : files[k]? with
    | none =>
      rw [hfile] at hentry
      cases hentry
    | some f =>
      rw [hfile] at hentry
      rw [← Option.some.inj hentry]
      exact congrArg some (key_key f.target).symm

theorem entryAt_inum (hj : j < files.length + 2) : (entryAt files j).inum = max j ROOTINO := by
  have hentry := entryAt_eq hj
  match j, hj with
  | 0, _ => rfl
  | 1, _ => rfl
  | k + 2, hk =>
    simp only [entries, List.getElem?_cons_succ, List.getElem?_mapIdx, Option.map_eq_some_iff] at hentry
    obtain ⟨f, -, hf⟩ := hentry
    rw [← hf]
    exact (Nat.max_eq_left (Nat.le_add_left 1 (k + 1))).symm

theorem Laid.fixed_lookup (h : Laid t (contents files)) (hfi : t.freeinode = files.length + 2)
    (hlen : files.length ≤ maxfiles) (hm : m < files.length + 2) (hmiss : ∀ j < m, key (entryAt files j).name ≠ key name)
    (hhit : key (entryAt files m).name = key name)
    : dirlookup sb devsw t.fixed.image (dinode sb t.fixed.image ROOTINO) name =
      .ok (t.fixed.image, dinode sb t.fixed.image ROOTINO, some (max m ROOTINO, DIRENT * m)) := by
  have hmax : maxfiles = 206 := by decide
  have hpos : 0 < ROOTINO := by decide
  have hi : ROOTINO < t.freeinode := by
    unfold ROOTINO
    omega
  have hsize := h.fixed_size_le hpos hi
  have hend : DIRENT * m < (dinode sb t.fixed.image ROOTINO).size := by
    rw [root_length] at hsize
    unfold DIRENT at *
    omega
  have hread : ∀ j ≤ m, readi sb devsw t.fixed.image (dinode sb t.fixed.image ROOTINO) (DIRENT * j) DIRENT =
      .ok ⟨t.fixed.image, dinode sb t.fixed.image ROOTINO, DIRENT, (entryAt files j).toBytes⟩ :=
    fun j hj => h.fixed_entry hfi hlen (by omega)
  have hinum : ∀ j ≤ m, 0 < (entryAt files j).inum ∧ (entryAt files j).inum < 2 ^ 16 := by
    intro j hj
    rw [entryAt_inum (by omega)]
    unfold ROOTINO
    omega
  have hfuel : m - 0 < (dinode sb t.fixed.image ROOTINO).size + 1 := by
    unfold DIRENT at hend
    omega
  have hloop := dirlookupLoop_first hread hinum hmiss hhit hend (Nat.zero_le m) hfuel
  rw [Nat.mul_zero, entryAt_inum hm] at hloop
  unfold dirlookup
  rw [if_neg (not_not_intro (h.fixed_root_type hi))]
  exact hloop

-- `dirlookup` in the root directory by the name of `f` finds an inode with the bytes of `f`.
def Decodes (t : State) (devsw : Devsw) (f : File) : Prop :=
  ∃ inum off, dirlookup sb devsw t.image (dinode sb t.image ROOTINO) (f.target.take DIRSIZ) =
      .ok (t.image, dinode sb t.image ROOTINO, some (inum, off)) ∧
    Holds t devsw inum f.bytes

theorem main_decodes (hok : main files = .ok t) (hlen : files.length ≤ maxfiles) (hnames : ((names files).map key).Nodup)
    : ∀ f ∈ files, Decodes t devsw f := by
  intro f hf
  obtain ⟨k, hk, rfl⟩ := List.getElem_of_mem hf
  obtain ⟨t1, h1, hfi1, hfix⟩ := main_laid hlen hok
  rw [fixroot_eq h1] at hfix
  cases hfix
  have hm : k + 2 < files.length + 2 := by omega
  have hkey : key (entryAt files (k + 2)).name = key (files[k].target.take DIRSIZ) := by
    have hname := entryAt_name hm
    simp only [names, List.map_cons, List.getElem?_cons_succ, List.getElem?_map, List.getElem?_eq_getElem hk,
      Option.map_some, Option.some.injEq] at hname
    rw [← hname, key_take]
  have hmiss : ∀ j < k + 2, key (entryAt files j).name ≠ key (files[k].target.take DIRSIZ) := by
    intro j hj heq
    have hsame : ((names files).map key)[j]? = ((names files).map key)[k + 2]? := by
      rw [entryAt_name (by omega), entryAt_name hm, heq, hkey]
    have := (List.getElem?_inj (by rw [List.length_map, names_length]; omega) hnames).mp hsame
    omega
  have hinum : max (k + 2) ROOTINO = k + 2 := by
    unfold ROOTINO
    omega
  have hbytes : contents files (k + 2) = files[k].bytes := by
    have hne : k + 2 ≠ ROOTINO := by
      unfold ROOTINO
      omega
    simp [contents, hne, hk]
  refine ⟨k + 2, DIRENT * (k + 2), ?_, ?_⟩
  . rw [← hinum]
    exact h1.fixed_lookup hfi1 hlen hm hmiss hkey
  . rw [← hbytes]
    exact h1.fixed_holds (by omega) (by omega) (by unfold ROOTINO; omega)

theorem main_decodes_two
    : ∃ t, main twoFiles = .ok t ∧ ∀ f ∈ twoFiles, Decodes t ⟨fun _ => none, fun _ => none⟩ f := by
  obtain ⟨t, ht⟩ := main_twoFiles
  exact ⟨t, ht, main_decodes ht (by decide) (by decide)⟩

-- The name `_.` becomes that of the first entry.
theorem dot_hides_file : ¬ ∀ devsw files t, main files = .ok t → files.length ≤ maxfiles →
    ((files.map File.target).map key).Nodup → ∀ f ∈ files, Decodes t devsw f := by
  intro h
  have hname : (0x2f : UInt8) ∉ [0x5f, 0x2e] := by decide
  obtain ⟨t, ht⟩ := main_empties 1 hname (by decide)
  obtain ⟨inum, off, hlookup, hfile⟩ :=
    h ⟨fun _ => none, fun _ => none⟩ _ t ht (by decide) (by decide) _ List.mem_cons_self
  obtain ⟨t1, h1, hfi1, hfix⟩ := main_laid (by decide) ht
  rw [fixroot_eq h1] at hfix
  cases hfix
  have hfirst : dirlookup sb ⟨fun _ => none, fun _ => none⟩ t1.fixed.image (dinode sb t1.fixed.image ROOTINO) [0x2e] =
      .ok (t1.fixed.image, dinode sb t1.fixed.image ROOTINO, some (max 0 ROOTINO, DIRENT * 0)) :=
    h1.fixed_lookup hfi1 (by decide) (by decide) (fun j hj => absurd hj (Nat.not_lt_zero j)) rfl
  have hinum : inum = ROOTINO := by
    have heq := Except.ok.inj (hlookup.symm.trans hfirst)
    simp only [Prod.mk.injEq, Option.some.injEq] at heq
    exact heq.2.2.1
  have htype : (dinode sb t1.fixed.image ROOTINO).type = T_DIR := h1.fixed_root_type (by rw [hfi1]; decide)
  have hne : T_FILE ≠ T_DIR := by decide
  rw [hinum] at hfile
  exact hne (hfile.type.symm.trans htype)

end Xv6.Mkfs
