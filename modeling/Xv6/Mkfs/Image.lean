import Xv6.Fs.Dirent
import Xv6.Mkfs.Lemmas

/-!
What the image holds between two calls of `iappend`: with the bitmap written it is a well-formed disk, on which every
inode has exactly the blocks that its size needs.
-/

namespace Xv6.Mkfs

open Bytes Fs Outcome

def State.disk (t : State) : Disk :=
  mark t.image t.freeblock

def kind (i : Nat) : Nat :=
  if i = ROOTINO then T_DIR else T_FILE

-- `c i` are the bytes of the inode `i`.
structure Laid (t : State) (c : Nat → List UInt8) : Prop where
  free : Free t.image t.freeblock
  le : t.freeinode ≤ room.ninodes
  wf : Fs.WellFormed room ⟨t.disk, dinode room t.disk⟩
  kind : ∀ i, 0 < i → i < t.freeinode → (dinode room t.disk i).type = kind i
  blank : ∀ i, t.freeinode ≤ i → i < room.ninodes → (dinode room t.disk i).type = 0
  tight : ∀ i, 0 < i → i < t.freeinode → ∀ bn, (dinode room t.disk i).size ≤ bn * BSIZE →
    slot t.disk (dinode room t.disk i) (.data bn) = 0
  content : ∀ i, 0 < i → i < t.freeinode → content t.disk (dinode room t.disk i) = c i

variable {image image' : Disk} {fb inum i type : Nat} {ip : Dinode} {t t' : State} {c : Nat → List UInt8} {p l : List UInt8}

theorem IBLOCK_lt_FSSIZE (hi : i < room.ninodes) : IBLOCK room i < FSSIZE ∧ IBLOCK room i ≠ room.bmapstart := by
  have := IBLOCK_lt hi
  have : room.bmapstart < FSSIZE := by decide
  omega

theorem winode_eq (image : Disk) (ip : Dinode) (hi : inum < room.ninodes)
    : winode image inum ip = .ok (iupdate room image inum ip) := by
  have hlt := (IBLOCK_lt_FSSIZE hi).1
  have hsb : IBLOCK sb inum = IBLOCK room inum := rfl
  unfold winode
  rw [hsb, rsect_eq image hlt, ok_bind, wsect_eq _ _ hlt]
  rfl

theorem dinode_mark (image : Disk) (fb : Nat) (hi : i < room.ninodes)
    : dinode room (mark image fb) i = dinode room image i :=
  dinode_congr (mark_of_ne (IBLOCK_lt_FSSIZE hi).2)

theorem rinode_eq (image : Disk) (fb : Nat) (hi : inum < room.ninodes)
    : rinode image inum = .ok (dinode room (mark image fb) inum) := by
  have hlt := (IBLOCK_lt_FSSIZE hi).1
  have hsb : IBLOCK sb inum = IBLOCK room inum := rfl
  unfold rinode
  rw [hsb, rsect_eq image hlt, ok_bind, dinode_mark image fb hi]
  rfl

theorem mark_iupdate (image : Disk) (fb : Nat) (ip : Dinode) (hi : inum < room.ninodes)
    : mark (iupdate room image inum ip) fb = iupdate room (mark image fb) inum ip := by
  have hne := (IBLOCK_lt_FSSIZE hi).2
  unfold iupdate
  rw [mark_of_ne hne, mark_update _ hne]

theorem kind_ne_zero (i : Nat) : kind i ≠ 0 := by
  unfold kind
  split <;> decide

theorem kind_ne_dev (i : Nat) : kind i ≠ T_DEV := by
  unfold kind
  split <;> decide

theorem Free.iupdate (hfree : Free image fb) (ip : Dinode) (hi : inum < room.ninodes)
    : Free (iupdate room image inum ip) fb := by
  have hlo := hfree.lo
  have := IBLOCK_lt hi
  have := bmapstart_lt room
  rw [room_nmeta] at this
  exact hfree.update _ (by omega)

theorem Laid.size_eq (h : Laid t c) (hpos : 0 < i) (hi : i < t.freeinode) : (dinode room t.disk i).size = (c i).length := by
  rw [← h.content i hpos hi, content_length]

theorem Laid.step (h : Laid t c) (hwf : Fs.WellFormed room ⟨t'.disk, Function.update (dinode room t.disk) inum ip⟩)
    (hfree : Free t'.image t'.freeblock) (hlt : inum < t'.freeinode) (hle : t'.freeinode ≤ room.ninodes)
    (hgrow : t.freeinode ≤ t'.freeinode) (hnew : ∀ i < t'.freeinode, i ≠ inum → i < t.freeinode)
    (hdata : ∀ x : Nat × Slot, x.1 ≠ inum → own room t.disk (dinode room t.disk) x ≠ 0 →
      t'.disk (own room t.disk (dinode room t.disk) x) = t.disk (own room t.disk (dinode room t.disk) x))
    (hkind : ip.type = Mkfs.kind inum) (htight : ∀ bn, ip.size ≤ bn * BSIZE → slot t'.disk ip (.data bn) = 0)
    (hcontent : Fs.content t'.disk ip = l)
    : Laid t' (Function.update c inum l) := by
  have hself : dinode room t'.disk inum = ip := by
    have := hwf.coherent inum (Nat.lt_of_lt_of_le hlt hle)
    dsimp only at this
    rwa [Function.update_self] at this
  have hother : ∀ i < room.ninodes, i ≠ inum → dinode room t'.disk i = dinode room t.disk i := by
    intro i hi hne
    have := hwf.coherent i hi
    dsimp only at this
    rwa [Function.update_of_ne hne] at this
  have hlive : ∀ i, 0 < i → i < t.freeinode → (dinode room t.disk i).type ≠ 0 := by
    intro i hpos hi
    rw [h.kind i hpos hi]
    exact kind_ne_zero i
  constructor
  . exact hfree
  . exact hle
  . exact hwf.congr fun i hi => (hwf.coherent i hi)
  . intro i hpos hi
    by_cases hne : i = inum
    . rw [hne, hself, hkind]
    . rw [hother i (by omega) hne]
      exact h.kind i hpos (hnew i hi hne)
  . intro i hge hi
    rw [hother i hi (by omega)]
    exact h.blank i (by omega) hi
  . intro i hpos hi bn hbn
    by_cases hne : i = inum
    . rw [hne, hself] at hbn ⊢
      exact htight bn hbn
    . have hi' := hnew i hi hne
      rw [hother i (by omega) hne] at hbn ⊢
      rw [slot_of_own (Nat.lt_of_lt_of_le hi' h.le) (hlive i hpos hi') (fun s hs => hdata (i, s) hne hs)]
      exact h.tight i hpos hi' bn hbn
  . intro i hpos hi
    by_cases hne : i = inum
    . rw [hne, hself, Function.update_self, hcontent]
    . have hi' := hnew i hi hne
      have hlt' := Nat.lt_of_lt_of_le hi' h.le
      rw [hother i (by omega) hne, Function.update_of_ne hne, ← h.content i hpos hi']
      apply content_of_own hlt' (hlive i hpos hi')
      . intro k hk
        exact h.wf.mapped_byte hlt' (hlive i hpos hi') hk
      . exact fun s hs => hdata (i, s) hne hs

theorem ialloc_laid (h : Laid t c) (hlt : t.freeinode < room.ninodes)
    (hkind : type = kind t.freeinode)
    : ∃ t', ialloc t type = .ok (t', t.freeinode) ∧ Laid t' (Function.update c t.freeinode []) ∧
      t'.freeinode = t.freeinode + 1 ∧ t'.freeblock = t.freeblock := by
  have htype : type < 2 ^ 16 := by
    rw [hkind]
    unfold kind
    split <;> decide
  have hfits : ({ Dinode.zero with type := type, nlink := 1 } : Dinode).Fits := by
    constructor <;> simp [Dinode.zero]
    exact htype
  have hwf := h.wf.update hlt (.refl room t.disk) (h.wf.owned.blank (h.blank _ le_rfl hlt) rfl) hfits rfl
  have hdisk : ∀ x, nmeta ≤ x →
      iupdate room t.disk t.freeinode { Dinode.zero with type := type, nlink := 1 } x = t.disk x := by
    intro x hx
    have := bmapstart_lt room
    rw [room_nmeta] at this
    exact iupdate_of_le hlt (by omega)
  dsimp only at hwf
  unfold ialloc
  rw [winode_eq _ _ hlt]
  refine ⟨_, rfl, ?_, rfl, rfl⟩
  have hmark : ∀ ip, State.disk ⟨iupdate room t.image t.freeinode ip, t.freeinode + 1, t.freeblock⟩ =
      iupdate room t.disk t.freeinode ip := fun ip => mark_iupdate t.image t.freeblock ip hlt
  have hwf' : Fs.WellFormed room
      ⟨State.disk ⟨iupdate room t.image t.freeinode { Dinode.zero with type := type, nlink := 1 }, t.freeinode + 1,
        t.freeblock⟩, Function.update (dinode room t.disk) t.freeinode { Dinode.zero with type := type, nlink := 1 }⟩ := by
    rw [hmark]
    exact hwf
  apply h.step hwf'
  . exact h.free.iupdate _ hlt
  . exact Nat.lt_succ_self _
  . exact hlt
  . exact Nat.le_succ _
  . intro i hi hne
    dsimp only at hi
    omega
  . intro x _ hx
    rw [hmark]
    exact hdisk _ (h.wf.owned.le hx)
  . exact hkind
  . intro bn _
    simp [slot, Dinode.zero]
  . rfl

theorem overwrite_end (l p : List UInt8) : overwrite l (fun k => p.getD k 0) l.length p.length = l ++ p := by
  unfold overwrite
  apply List.ext_getElem
  . simp
  . intro k h1 h2
    rw [List.length_append] at h2
    by_cases hk : k < l.length
    . simp [hk]
    . have hin : l.length ≤ k ∧ k < l.length + p.length := by omega
      have hk' : k - l.length < p.length := by omega
      rw [List.getElem_append_right hin.1]
      simp [hin, hk']

theorem iappend_sim (h : Laid t c) (hpos : 0 < inum) (hlt : inum < t.freeinode) (hp : p ≠ [])
    (hmax : (c inum).length + p.length ≤ MAXFILE * BSIZE)
    : (∃ t', iappend t inum p = .ok t' ∧ Laid t' (Function.update c inum (c inum ++ p)) ∧
        t'.freeinode = t.freeinode ∧ t.freeblock ≤ t'.freeblock ∧
        t'.freeblock ≤ t.freeblock + 2 * rounds (c inum).length p.length) ∨
      FSSIZE < t.freeblock + 2 * rounds (c inum).length p.length ∧ ∃ msg, iappend t inum p = .error msg := by
  have hi := Nat.lt_of_lt_of_le hlt h.le
  have hsize := h.size_eq hpos hlt
  have ht : (dinode room t.disk inum).type ≠ 0 := by
    rw [h.kind inum hpos hlt]
    exact kind_ne_zero inum
  have hdev : (dinode room t.disk inum).type ≠ T_DEV := by
    rw [h.kind inum hpos hlt]
    exact kind_ne_dev inum
  have hlen : 0 < p.length := List.length_pos_of_ne_nil hp
  have hwrap : (c inum).length + p.length < 2 ^ 32 := by
    have : MAXFILE * BSIZE < 2 ^ 32 := by decide
    omega
  have hrinode : rinode t.image inum = .ok (dinode room t.disk inum) := rinode_eq t.image t.freeblock hi
  rw [← hsize] at hmax
  have hsim := appendLoop_sim (p := fun k => p.getD k 0) h.wf.owned ⟨hi, ht⟩ (h.wf.fits hi) h.free hmax
  unfold iappend
  rw [hrinode, ok_bind]
  rcases hsim with ⟨image', fb', din', happend, hwrite, hfb, hfb', hfree'⟩ | ⟨hend, msg, happend⟩
  . left
    obtain ⟨ip', hip'⟩ : ∃ ip' : Dinode, ip' = { din' with size := (dinode room t.disk inum).size + p.length } :=
      ⟨_, rfl⟩
    have haddrs : ip'.addrs = din'.addrs := by rw [hip']
    rw [happend, ok_bind]
    dsimp only
    rw [winode_eq _ _ hi, ← hip']
    rw [hsize] at hfb'
    refine ⟨_, rfl, ?_, rfl, hfb, hfb'⟩
    -- the kernel's `writei` at the end of the file
    obtain ⟨hwrites, -⟩ := writeLoop_spec h.wf.owned ⟨hi, ht⟩ (h.wf.fits hi) hwrite
    have hwritei : writei room ⟨fun _ => none, fun _ => none⟩ t.disk inum (dinode room t.disk inum)
        (fun k => p.getD k 0) (dinode room t.disk inum).size p.length =
          .ok ⟨iupdate room (mark image' fb') inum ip', ip', p.length⟩ := by
      unfold writei
      rw [if_neg hdev, if_neg (by omega), if_neg (by omega)]
      have hgrows : p.length > 0 ∧ (dinode room t.disk inum).size + p.length > din'.size := by
        have : din'.size = (dinode room t.disk inum).size := hwrites.size_eq
        omega
      have hloop : writeLoop room t.disk (dinode room t.disk inum) (fun k => p.getD k 0) (dinode room t.disk inum).size
          p.length = .ok (mark image' fb', din') := hwrite
      rw [hloop, ok_bind]
      dsimp only
      rw [if_pos hgrows, hip']
      rfl
    have hacc : Accepts (dinode room t.disk inum).size (dinode room t.disk inum).size p.length :=
      ⟨le_rfl, by omega, hmax⟩
    have hspec := writei_spec h.wf hi ht hdev hacc hwritei
    dsimp only at hspec
    obtain ⟨-, hwf, -, htype, -, hcontent⟩ := hspec
    have hmark : State.disk ⟨iupdate room image' inum ip', t.freeinode, fb'⟩ =
        iupdate room (mark image' fb') inum ip' := mark_iupdate image' fb' ip' hi
    have hdisk : ∀ x, nmeta ≤ x → iupdate room (mark image' fb') inum ip' x = mark image' fb' x := by
      intro x hx
      have := bmapstart_lt room
      rw [room_nmeta] at this
      exact iupdate_of_le hi (by omega)
    rw [← hmark] at hwf hcontent
    apply h.step hwf
    . exact hfree'.iupdate ip' hi
    . exact hlt
    . exact h.le
    . exact le_rfl
    . exact fun i hi _ => hi
    . intro x hx hne
      rw [hmark, hdisk _ (h.wf.owned.le hne)]
      exact hwrites.data x hx hne
    . rw [← h.kind inum hpos hlt]
      exact htype
    . intro bn hbn
      have hend : (dinode room t.disk inum).size + p.length ≤ bn * BSIZE := by rwa [hip'] at hbn
      have hdata := writeLoop_data h.wf.owned ⟨hi, ht⟩ (h.wf.fits hi) hwrite hend
      rw [hmark, hwrites.settle_slot hdisk haddrs, hdata]
      exact h.tight inum hpos hlt bn (by omega)
    . rw [hcontent, h.content inum hpos hlt, hsize, overwrite_end]
  . right
    rw [hsize] at hend
    refine ⟨hend, msg, ?_⟩
    rw [happend]
    rfl

theorem iappend_laid (h : Laid t c) (hpos : 0 < inum) (hlt : inum < t.freeinode) (hp : p ≠ [])
    (hok : iappend t inum p = .ok t')
    : Laid t' (Function.update c inum (c inum ++ p)) ∧ t'.freeinode = t.freeinode ∧ t.freeblock ≤ t'.freeblock := by
  have hmax : (c inum).length + p.length ≤ MAXFILE * BSIZE := by
    have hi := Nat.lt_of_lt_of_le hlt h.le
    have hrinode : rinode t.image inum = .ok (dinode room t.disk inum) := rinode_eq t.image t.freeblock hi
    have hok' := hok
    unfold iappend at hok'
    rw [hrinode, ok_bind] at hok'
    obtain ⟨r, hloop, -⟩ := bind_eq_ok hok'
    rcases appendLoop_max hloop with hzero | hmax
    . exact absurd (List.eq_nil_of_length_eq_zero hzero) hp
    . rwa [h.size_eq hpos hlt] at hmax
  rcases iappend_sim h hpos hlt hp hmax with ⟨t1, happend, hlaid, hfi, hfb, -⟩ | ⟨-, msg, happend⟩
  . rw [hok] at happend
    cases happend
    exact ⟨hlaid, hfi, hfb⟩
  . rw [hok] at happend
    cases happend

theorem Laid.congr {c' : Nat → List UInt8} (h : Laid t c) (hc : ∀ i, 0 < i → i < t.freeinode → c' i = c i) : Laid t c' where
  free := h.free
  le := h.le
  wf := h.wf
  kind := h.kind
  blank := h.blank
  tight := h.tight
  content i hpos hi := by
    rw [hc i hpos hi]
    exact h.content i hpos hi

theorem appendChunks_laid {chunks : List (List UInt8)} (h : Laid t c) (hpos : 0 < inum) (hlt : inum < t.freeinode)
    (hchunks : ∀ chunk ∈ chunks, 0 < chunk.length)
    (hok : chunks.foldlM (fun t chunk => iappend t inum chunk) t = .ok t')
    : Laid t' (Function.update c inum (c inum ++ chunks.flatten)) ∧ t'.freeinode = t.freeinode ∧
      t.freeblock ≤ t'.freeblock := by
  induction chunks generalizing t c with
  | nil =>
    cases hok
    rw [List.flatten_nil, List.append_nil, Function.update_eq_self]
    exact ⟨h, rfl, le_rfl⟩
  | cons chunk chunks ih =>
    obtain ⟨t1, happend, hok⟩ := bind_eq_ok hok
    have hne : chunk ≠ [] := List.ne_nil_of_length_pos (hchunks chunk List.mem_cons_self)
    obtain ⟨h1, hfi1, hfb1⟩ := iappend_laid h hpos hlt hne happend
    obtain ⟨h2, hfi2, hfb2⟩ := ih h1 (by omega) (fun chunk hmem => hchunks chunk (List.mem_cons_of_mem _ hmem)) hok
    rw [Function.update_self, Function.update_idem, List.append_assoc] at h2
    rw [List.flatten_cons]
    exact ⟨h2, by omega, by omega⟩

-- The root directory: the file at the place `k` of the list has the inode `k + 2`.
def entries (files : List File) : List Dirent :=
  ⟨ROOTINO, strncpy DIRSIZ [0x2e]⟩ :: ⟨ROOTINO, strncpy DIRSIZ [0x2e, 0x2e]⟩ ::
    files.mapIdx fun k f => ⟨k + 2, strncpy DIRSIZ f.target⟩

def contents (files : List File) (i : Nat) : List UInt8 :=
  if i = ROOTINO then (entries files).flatMap Dirent.toBytes else ((files[i - 2]?).map File.bytes).getD []

theorem entries_concat (files : List File) (f : File)
    : entries (files ++ [f]) = entries files ++ [⟨files.length + 2, strncpy DIRSIZ f.target⟩] := by
  unfold entries
  rw [List.mapIdx_concat]
  rfl

theorem entries_length (files : List File) : (entries files).length = files.length + 2 := by
  simp [entries]

theorem direntBytes_length (inum : Nat) (name : List UInt8) : (direntBytes inum name).length = DIRENT :=
  Dirent.length_toBytes (length_strncpy _ _)

theorem direntBytes_ne_nil (inum : Nat) (name : List UInt8) : direntBytes inum name ≠ [] := by
  apply List.ne_nil_of_length_pos
  rw [direntBytes_length]
  decide

theorem contents_concat (files : List File) (f : File) (hi : i ≠ 0)
    : contents (files ++ [f]) i = Function.update (Function.update (contents files) ROOTINO
        (contents files ROOTINO ++ direntBytes (files.length + 2) f.target)) (files.length + 2) f.bytes i := by
  by_cases hroot : i = ROOTINO
  . subst hroot
    have hne : ROOTINO ≠ files.length + 2 := by
      unfold ROOTINO
      omega
    rw [Function.update_of_ne hne, Function.update_self]
    simp [contents, entries_concat, direntBytes]
  . by_cases hlast : i = files.length + 2
    . subst hlast
      rw [Function.update_self]
      simp [contents, ROOTINO]
    . rw [Function.update_of_ne hlast, Function.update_of_ne hroot]
      have hne : i - 2 ≠ files.length := by
        unfold ROOTINO at hroot
        omega
      have hget : (files ++ [f])[i - 2]? = files[i - 2]? := by
        rw [List.getElem?_append]
        split
        . rfl
        . rw [List.getElem?_eq_none_iff.mpr (by simp; omega), List.getElem?_eq_none_iff.mpr (by omega)]
      simp only [contents, if_neg hroot, hget]

theorem addFile_laid {files : List File} {f : File} (h : Laid t (contents files)) (hfi : t.freeinode = files.length + 2)
    (hlt : t.freeinode < room.ninodes) (hok : addFile t f = .ok t')
    : Laid t' (contents (files ++ [f])) ∧ t'.freeinode = files.length + 3 ∧ t.freeblock ≤ t'.freeblock := by
  unfold addFile at hok
  split at hok
  . cases hok
  . have hkind : T_FILE = kind t.freeinode := by
      have : t.freeinode ≠ ROOTINO := by
        unfold ROOTINO
        omega
      rw [kind, if_neg this]
    obtain ⟨t1, halloc, h1, hfi1, hfb1⟩ := ialloc_laid h hlt hkind
    rw [halloc, ok_bind] at hok
    obtain ⟨t2, hdir, hok⟩ := bind_eq_ok hok
    have hroot : ROOTINO < t1.freeinode := by
      unfold ROOTINO
      omega
    obtain ⟨h2, hfi2, hfb2⟩ := iappend_laid h1 (by decide) hroot (direntBytes_ne_nil _ _) hdir
    obtain ⟨h3, hfi3, hfb3⟩ := appendChunks_laid h2 (by omega) (by omega) f.chunk_pos hok
    refine ⟨?_, by omega, by omega⟩
    have hne : t.freeinode ≠ ROOTINO := by
      unfold ROOTINO
      omega
    apply h3.congr
    intro i hpos hi
    rw [contents_concat files f (by omega), ← hfi, Function.update_of_ne hne.symm, Function.update_of_ne hne,
      Function.update_self, List.nil_append]
    by_cases hlast : i = t.freeinode
    . rw [hlast, Function.update_self, Function.update_self]
      rfl
    . rw [Function.update_of_ne hlast, Function.update_of_ne hlast]
      by_cases hdir : i = ROOTINO
      . rw [hdir, Function.update_self, Function.update_self]
      . rw [Function.update_of_ne hdir, Function.update_of_ne hdir, Function.update_of_ne hlast]

theorem zeroed_image (x : Nat) (hx : x ≠ 1) : zeroed.image x = fun _ => 0 := by
  have hsector : sector 1 = 1 := rfl
  have himage : zeroed.image = Function.update (fun _ _ => 0) (sector 1) superblock := rfl
  rw [himage, hsector, Function.update_of_ne hx]

theorem zeroed_dinode (hi : i < room.ninodes) : dinode room zeroed.disk i = .zero := by
  have hne : IBLOCK room i ≠ 1 := by
    have : 2 ≤ IBLOCK room i := Nat.le_add_left 2 _
    omega
  have hmark := dinode_mark zeroed.image zeroed.freeblock hi
  unfold State.disk
  rw [hmark]
  unfold dinode
  rw [zeroed_image _ hne]
  exact getDinode_zero _

theorem zeroed_laid (c : Nat → List UInt8) : Laid zeroed c := by
  have hmeta : zeroed.freeblock = nmeta := rfl
  have hown : ∀ x, own room zeroed.disk (dinode room zeroed.disk) x = 0 := by
    intro x
    unfold own
    split
    . next hlive =>
      rw [zeroed_dinode hlive.1] at hlive
      exact absurd rfl hlive.2
    . rfl
  have hbit : ∀ b < FSSIZE, bit room zeroed.disk b = decide (b < nmeta) := by
    intro b hb
    exact bit_mark hb
  constructor
  . refine ⟨le_rfl, by decide, ?_⟩
    intro b hlo _
    apply zeroed_image
    have : 1 < nmeta := by decide
    omega
  . decide
  . constructor
    . refine ⟨⟨by decide, ?_, ?_, List.nodup_nil, ?_, ?_, ?_⟩, ?_⟩
      . intro x y hx
        exact absurd (hown x) hx
      . exact fun x => List.not_mem_nil
      . intro x hx
        exact absurd (hown x) hx
      . simp
      . intro b hlo hhi
        rw [room_nmeta] at hlo
        have hpos : 0 < nmeta := by decide
        dsimp only
        rw [hbit b hhi, decide_eq_true_eq]
        constructor
        . intro hlt
          omega
        . rintro (⟨x, hx⟩ | hmem)
          . rw [hown x] at hx
            omega
          . cases hmem
      . intro b hb
        rw [room_nmeta] at hb
        have : nmeta < FSSIZE := by decide
        dsimp only
        rw [hbit b (by omega), decide_eq_true_eq]
        exact hb
    . exact fun _ _ => rfl
    . intro i hi ht
      dsimp only at ht
      rw [zeroed_dinode hi] at ht
      exact absurd rfl ht
  . intro i hpos hi
    exact absurd hi (Nat.not_lt.mpr hpos)
  . intro i _ hi
    rw [zeroed_dinode hi]
    rfl
  . intro i hpos hi
    exact absurd hi (Nat.not_lt.mpr hpos)
  . intro i hpos hi
    exact absurd hi (Nat.not_lt.mpr hpos)

theorem mkroot_laid (hok : mkroot zeroed = .ok t) : Laid t (contents []) ∧ t.freeinode = 2 := by
  unfold mkroot at hok
  have hroot : zeroed.freeinode = ROOTINO := rfl
  obtain ⟨t1, halloc, h1, hfi1, -⟩ := ialloc_laid (zeroed_laid fun _ => []) (by decide) (show T_DIR = kind zeroed.freeinode from rfl)
  rw [halloc, ok_bind] at hok
  dsimp only at hok
  rw [if_neg (by simp [hroot]), hroot] at hok
  rw [hroot] at h1 hfi1
  have hlt : ROOTINO < t1.freeinode := by omega
  obtain ⟨t2, hdot, hok⟩ := bind_eq_ok hok
  obtain ⟨h2, hfi2, -⟩ := iappend_laid h1 (by decide) hlt (direntBytes_ne_nil _ _) hdot
  obtain ⟨h3, hfi3, -⟩ := iappend_laid h2 (by decide) (by omega) (direntBytes_ne_nil _ _) hok
  have hfi : t.freeinode = 2 := by
    rw [hfi3, hfi2, hfi1]
    rfl
  refine ⟨h3.congr ?_, hfi⟩
  intro i hpos hi
  have hi : i = ROOTINO := by
    unfold ROOTINO
    omega
  rw [hi]
  simp [contents, entries, direntBytes]

theorem files_laid {done files : List File} (h : Laid t (contents done)) (hfi : t.freeinode = done.length + 2)
    (hlen : done.length + files.length + 2 ≤ room.ninodes) (hok : files.foldlM addFile t = .ok t')
    : Laid t' (contents (done ++ files)) ∧ t'.freeinode = done.length + files.length + 2 := by
  induction files generalizing t done with
  | nil =>
    cases hok
    rw [List.append_nil]
    exact ⟨h, hfi⟩
  | cons f files ih =>
    rw [List.length_cons] at hlen
    obtain ⟨t1, hadd, hok⟩ := bind_eq_ok hok
    obtain ⟨h1, hfi1, -⟩ := addFile_laid h hfi (by omega) hadd
    have hlast : (done ++ [f]).length = done.length + 1 := List.length_append
    have := ih h1 (by omega) (by omega) hok
    rw [List.append_assoc, List.singleton_append] at this
    refine ⟨this.1, ?_⟩
    rw [this.2, hlast, List.length_cons]
    omega

-- The number of files for which there are inodes.
def maxfiles : Nat := room.ninodes - 2

theorem main_laid {files : List File} (hlen : files.length ≤ maxfiles) (hok : main files = .ok t)
    : ∃ t1, Laid t1 (contents files) ∧ t1.freeinode = files.length + 2 ∧ fixroot t1 = .ok t := by
  obtain ⟨t0, hroot, hok⟩ := bind_eq_ok hok
  obtain ⟨t1, hfiles, hok⟩ := bind_eq_ok hok
  obtain ⟨h0, hfi0⟩ := mkroot_laid hroot
  have hroom : 2 ≤ room.ninodes := by decide
  have hsum : ([] : List File).length + files.length + 2 ≤ room.ninodes := by
    rw [List.length_nil]
    unfold maxfiles at hlen
    omega
  obtain ⟨h1, hfi1⟩ := files_laid h0 hfi0 hsum hfiles
  rw [List.nil_append] at h1
  rw [List.length_nil, Nat.zero_add] at hfi1
  exact ⟨t1, h1, hfi1, hok⟩

def rounded (ip : Dinode) : Dinode :=
  { ip with size := (ip.size / BSIZE + 1) * BSIZE % 2 ^ 32 }

theorem fixroot_eq (h : Laid t c)
    : fixroot t = .ok { t with image := iupdate room t.disk ROOTINO (rounded (dinode room t.disk ROOTINO)) } := by
  have hroot : ROOTINO < room.ninodes := by decide
  have hrinode : rinode t.image ROOTINO = .ok (dinode room t.disk ROOTINO) := rinode_eq t.image t.freeblock hroot
  have hfb : t.freeblock < BSIZE * 8 := Nat.lt_of_le_of_lt h.free.hi (by decide)
  have hmark : mark (iupdate room t.image ROOTINO (rounded (dinode room t.disk ROOTINO))) t.freeblock =
      iupdate room t.disk ROOTINO (rounded (dinode room t.disk ROOTINO)) := mark_iupdate _ _ _ hroot
  have hsect : ∀ image buf, wsect image sb.bmapstart buf = Function.update image room.bmapstart buf :=
    fun image buf => wsect_eq image buf (by decide)
  unfold fixroot
  rw [hrinode, ok_bind, winode_eq _ _ hroot, ok_bind]
  unfold balloc
  rw [if_pos hfb, hsect, ← hmark]
  rfl

end Xv6.Mkfs
