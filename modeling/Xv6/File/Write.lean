import Xv6.File.Access

/-!
What `filewrite` has stored when it returns. A write is cut into chunks of `MAXCHUNK` bytes, and `writei` refuses a
chunk behind the end of the file or beyond the largest size of a file, so that the chunks before it stay in the file.
-/

namespace Xv6.Fs

open Bytes Outcome

theorem overwrite_getD (c : List UInt8) (src : Memory) (off n k : Nat)
    : (overwrite c src off n).getD k 0 = if off ≤ k ∧ k < off + n then src (k - off) else c.getD k 0 := by
  unfold overwrite
  by_cases hk : k < max c.length (off + n)
  . rw [List.getD_eq_getElem?_getD]
    simp [hk]
  . rw [if_neg (by omega), List.getD_eq_default _ _ (by simpa using hk), List.getD_eq_default _ _ (by omega)]

theorem overwrite_append {c : List UInt8} (src : Memory) (off i m : Nat)
    : overwrite (overwrite c src off i) (fun k => src (i + k)) (off + i) m = overwrite c src off (i + m) := by
  have hget := overwrite_getD c src off i
  have hlen : max (overwrite c src off i).length (off + i + m) = max c.length (off + (i + m)) := by
    simp only [overwrite, List.length_map, List.length_range]
    omega
  generalize overwrite c src off i = d at hget hlen
  unfold overwrite
  rw [hlen]
  apply List.map_congr_left
  intro k _
  rw [hget]
  by_cases hlo : off + i ≤ k ∧ k < off + i + m
  . rw [if_pos hlo, if_pos (by omega)]
    dsimp only
    rw [show i + (k - (off + i)) = k - off by omega]
  . rw [if_neg hlo]
    by_cases hin : off ≤ k ∧ k < off + i
    . rw [if_pos hin, if_pos (by omega)]
    . rw [if_neg hin, if_neg (by omega)]

/-- `writei` refuses the chunk of a write of `n` bytes at `off` that starts with the byte `i`. -/
def Refuses (size off n i : Nat) : Prop :=
  size < off ∨ MAXFILE * BSIZE < off + min n (i + MAXCHUNK)

instance (size off n i : Nat) : Decidable (Refuses size off n i) :=
  inferInstanceAs (Decidable (_ ∨ _))

/-- The first `k` bytes have been stored at the offset of `f`, and nothing else has changed. -/
structure Stored (sb : Superblock) (s : State) (f : File) (src : Memory) (k : Nat) (s' : State) (f' : File) : Prop where
  wf : WellFormed sb s'
  others : Others sb f.ip s s'
  type : (s'.ino f.ip).type = (s.ino f.ip).type
  file : f' = { f with off := f.off + k }
  none : k = 0 → s' = s
  content : k ≠ 0 → content s'.disk (s'.ino f.ip) = overwrite (content s.disk (s.ino f.ip)) src f.off k

section

variable {sb : Superblock} {devsw : Devsw} {s s' : State} {f f' : File} {src : Memory} {i k n : Nat}

namespace Stored

theorem refl (src : Memory) (h : WellFormed sb s) : Stored sb s f src 0 s f where
  wf := h
  others := ⟨fun _ _ => rfl, fun _ _ _ _ => rfl⟩
  type := rfl
  file := rfl
  none _ := rfl
  content h := absurd rfl h

theorem size (h : Stored sb s f src k s' f') (hk : k ≠ 0)
    : (s'.ino f.ip).size = max (s.ino f.ip).size (f.off + k) := by
  rw [← content_length s'.disk, h.content hk]
  simp [overwrite, content_length]

/-- A section that is accepted stores its bytes behind the ones before it. -/
theorem section_accepted {a : Access} (h : Stored sb s f src i s' f') (hf : s.isFile sb f.ip)
    (hacc : Accepts (s'.ino f.ip).size (f.off + i) n) (hn : n ≠ 0)
    (ha : writeSection sb devsw s' f' (fun k => src (i + k)) n = .ok a)
    : a.ret = n ∧ Stored sb s f src (i + n) a.s a.f := by
  obtain ⟨hi, ht, hdev⟩ := hf
  have hfile := h.file
  subst hfile
  unfold writeSection at ha
  obtain ⟨r, hr, ha⟩ := bind_eq_ok ha
  cases ha
  dsimp only at hr ⊢
  obtain ⟨hret, hwf, hothers, htype, -, hstored⟩ :=
    writei_spec h.wf hi (by rwa [h.type]) (by rwa [h.type]) hacc hr
  refine ⟨hret, hwf, ?_, ?_, ?_, by omega, ?_⟩
  . constructor
    . intro j hj
      rw [hothers.ino j hj, h.others.ino j hj]
    . intro j hlt hj htj
      rw [hothers.content j hlt hj (by rwa [h.others.ino j hj]), h.others.content j hlt hj htj]
  . simp only [Function.update_self]
    rw [htype, h.type]
  . have hwrap : f.off + i + n < 2 ^ 32 := hacc.2.1
    simp only [advance, hret]
    rw [if_pos (by omega)]
    simp only [Int.toNat_natCast]
    rw [Nat.mod_eq_of_lt hwrap, Nat.add_assoc]
  . intro _
    simp only [Function.update_self]
    rw [hstored]
    by_cases hzero : i = 0
    . subst hzero
      rw [h.none rfl]
      simp
    . rw [h.content hzero, overwrite_append]

end Stored

/-- What is refused depends on the size that the file had in the beginning. -/
theorem accepts_iff (h : Stored sb s f src i s' f') (hi : i < n) (hoff : i ≠ 0 → f.off ≤ (s.ino f.ip).size)
    : Accepts (s'.ino f.ip).size (f.off + i) (min (n - i) MAXCHUNK) ↔ ¬ Refuses (s.ino f.ip).size f.off n i := by
  have hmax : MAXFILE * BSIZE < 2 ^ 32 := by decide
  have hsum : f.off + i + min (n - i) MAXCHUNK = f.off + min n (i + MAXCHUNK) := by omega
  unfold Accepts Refuses
  rw [hsum]
  by_cases hzero : i = 0
  . subst hzero
    rw [h.none rfl]
    omega
  . have := hoff hzero
    rw [h.size hzero]
    omega

/-- The first chunk that is refused starts with the byte `k`, or no chunk is refused and `k` is `n`. -/
def Ends (size off n k : Nat) : Prop :=
  (∀ j < k, MAXCHUNK ∣ j → ¬ Refuses size off n j) ∧ (k = n ∨ k < n ∧ MAXCHUNK ∣ k ∧ Refuses size off n k)

theorem writeSection_refused (devsw : Devsw) (src' : Memory) (h : Stored sb s f src i s' f') (hf : s.isFile sb f.ip)
    (hlt : f.off + i < 2 ^ 32) (hn : n < 2 ^ 32) (hacc : ¬ Accepts (s'.ino f.ip).size (f.off + i) n)
    : writeSection sb devsw s' f' src' n = .ok ⟨s', f', -1⟩ := by
  have hfile := h.file
  subst hfile
  unfold writeSection
  dsimp only
  rw [writei_rejects (by rw [h.type]; exact hf.2.2) hlt hn hacc]
  simp [bind, Except.bind, pure, Except.pure, advance]

theorem writeSection_error {msg : String} (hlt : f.off + n < 2 ^ 32)
    (h : writeSection sb devsw s f src n = .error msg)
    : msg = "balloc: out of blocks" := by
  unfold writeSection at h
  obtain h | ⟨_, _, h⟩ := bind_eq_error h
  . exact writei_error h hlt
  . cases h

theorem eq_of_chunk {i j n : Nat} (hi : MAXCHUNK ∣ i) (hj : MAXCHUNK ∣ j) (hle : i ≤ j)
    (hlt : j < i + min (n - i) MAXCHUNK)
    : j = i := by
  obtain ⟨x, rfl⟩ := hi
  obtain ⟨y, rfl⟩ := hj
  have hxy : MAXCHUNK * y < MAXCHUNK * (x + 1) := by
    rw [Nat.mul_succ]
    omega
  have hlow := Nat.le_of_mul_le_mul_left hle (show 0 < MAXCHUNK by decide)
  have hhigh := Nat.lt_of_mul_lt_mul_left hxy
  rw [show y = x by omega]

theorem filewriteLoop_refused (hi : i < n)
    (h : writeSection sb devsw s f (fun k => src (i + k)) (min (n - i) MAXCHUNK) = .ok ⟨s, f, -1⟩)
    : filewriteLoop sb devsw s f src n i = .ok ⟨s, f, i⟩ := by
  unfold filewriteLoop
  rw [if_pos hi]
  dsimp only
  rw [h]
  rfl

theorem filewriteLoop_accepted {a : Access} (hi : i < n)
    (h : writeSection sb devsw s f (fun k => src (i + k)) (min (n - i) MAXCHUNK) = .ok a)
    (hret : a.ret = (min (n - i) MAXCHUNK : Nat))
    : filewriteLoop sb devsw s f src n i = filewriteLoop sb devsw a.s a.f src n (i + min (n - i) MAXCHUNK) := by
  rw [filewriteLoop, if_pos hi]
  dsimp only
  rw [h]
  simp only [bind, Except.bind]
  rw [if_neg (by omega), if_neg (by omega)]

theorem filewriteLoop_spec (devsw : Devsw) (hf : s.isFile sb f.ip) (hn : n < 2 ^ 31) (hlt : f.off + i < 2 ^ 32)
    (h : Stored sb s f src i s' f') (hi : i ≤ n) (hchunk : i = n ∨ MAXCHUNK ∣ i)
    (hbefore : ∀ j < i, MAXCHUNK ∣ j → ¬ Refuses (s.ino f.ip).size f.off n j)
    : match filewriteLoop sb devsw s' f' src n i with
      | .ok a => ∃ k : Nat, a.ret = k ∧ Stored sb s f src k a.s a.f ∧ Ends (s.ino f.ip).size f.off n k
      | .error msg => msg = "balloc: out of blocks" := by
  generalize hm : n - i = m
  induction m using Nat.strong_induction_on generalizing i s' f' with
  | _ m ih =>
    by_cases hin : i < n
    . have hdvd : MAXCHUNK ∣ i := hchunk.resolve_left (by omega)
      have hoff : i ≠ 0 → f.off ≤ (s.ino f.ip).size := by
        intro hne
        have := hbefore 0 (by omega) (Nat.dvd_zero _)
        unfold Refuses at this
        omega
      have hacc := accepts_iff h hin hoff
      by_cases hrefuse : Refuses (s.ino f.ip).size f.off n i
      . have hsection := writeSection_refused devsw (fun k => src (i + k)) h hf hlt (by omega)
          (fun hno => hacc.mp hno hrefuse)
        rw [filewriteLoop_refused hin hsection]
        exact ⟨i, rfl, h, hbefore, .inr ⟨hin, hdvd, hrefuse⟩⟩
      . have hwrap := (hacc.mpr hrefuse).2.1
        cases hsection : writeSection sb devsw s' f' (fun k => src (i + k)) (min (n - i) MAXCHUNK) with
        | error msg =>
          rw [filewriteLoop, if_pos hin]
          simp only [hsection, bind, Except.bind]
          rw [h.file] at hsection
          exact writeSection_error hwrap hsection
        | ok a =>
          have hpos : 0 < MAXCHUNK := by decide
          obtain ⟨hret, hstored⟩ := h.section_accepted hf (hacc.mpr hrefuse) (by omega) hsection
          rw [filewriteLoop_accepted hin hsection hret]
          apply ih _ _ (by omega) hstored (by omega) _ _ rfl
          . omega
          . by_cases hlast : n - i ≤ MAXCHUNK
            . left
              omega
            . right
              rw [Nat.min_eq_right (by omega)]
              exact Nat.dvd_add hdvd (Nat.dvd_refl _)
          . intro j hj hdvdj
            rcases Nat.lt_or_ge j i with hlow | hhigh
            . exact hbefore j hlow hdvdj
            . rwa [eq_of_chunk hdvd hdvdj hhigh hj]
    . rw [filewriteLoop, if_neg hin]
      exact ⟨i, rfl, h, hbefore, .inl (by omega)⟩

theorem filewrite_inode {n pipewrite : Int} (hw : f.writable = true) (ht : f.type = .inode)
    : filewrite sb devsw pipewrite s f src n = do
        let a ← filewriteLoop sb devsw s f src n.toNat 0
        return { a with ret := if a.ret = n then n else -1 } := by
  unfold filewrite
  rw [if_neg (by simp [hw]), ht]

theorem filewrite_spec {n : Int} (devsw : Devsw) (pipewrite : Int) (src : Memory) (hs : WellFormed sb s)
    (hf : s.isFile sb f.ip) (hw : f.writable = true) (ht : f.type = .inode) (hoff : f.off < 2 ^ 32) (hn : 0 ≤ n) (hmax : n < 2 ^ 31)
    : match filewrite sb devsw pipewrite s f src n with
      | .ok a => ∃ k : Nat, a.ret = (if k = n then n else -1) ∧ Stored sb s f src k a.s a.f ∧
          Ends (s.ino f.ip).size f.off n.toNat k
      | .error msg => msg = "balloc: out of blocks" := by
  have hloop := filewriteLoop_spec (n := n.toNat) devsw hf (by omega) hoff (Stored.refl src hs)
    (Nat.zero_le _) (.inr (Nat.dvd_zero _)) (by simp)
  rw [filewrite_inode hw ht]
  cases hresult : filewriteLoop sb devsw s f src n.toNat 0 with
  | error msg =>
    rw [hresult] at hloop
    exact hloop
  | ok a =>
    rw [hresult] at hloop
    obtain ⟨k, hret, hstored, hends⟩ := hloop
    refine ⟨k, ?_, hstored, hends⟩
    simp only [hret]

end

def fullInode : Dinode where
  type := T_FILE
  major := 0
  minor := 0
  nlink := 1
  size := MAXFILE * BSIZE
  addrs k := if k < NDIRECT then 60 + k else if k = NDIRECT then 59 else 0

-- A disk with a file of the largest size, in the blocks behind its indirect block.
def fullDisk : Disk := fun b =>
  if b = 32 then putDinode (fun _ => 0) 2 fullInode
  else if b = 58 then fun k => if k < 25 then 0xff else 0
  else if b = 59 then fun k => if k % 4 = 0 then UInt8.ofNat (72 + k / 4) else 0
  else fun _ => 0

def full : State where
  disk := fullDisk
  ino := dinode mkfsLayout fullDisk

theorem fullInode_fits : fullInode.Fits := by
  constructor
  . decide
  . decide
  . decide
  . decide
  . decide
  . intro k
    have hN : NDIRECT = 12 := rfl
    dsimp only [fullInode]
    split
    . omega
    . split <;> omega
  . intro k hk
    dsimp only [fullInode]
    rw [if_neg (by omega), if_neg (by omega)]

theorem full_ino {i : Nat} (hi : i < 200) : full.ino i = if i = 2 then fullInode else .zero := by
  simp only [full, dinode, IBLOCK, mkfsLayout, IPB, BSIZE, DINODE]
  by_cases hblock : i / 8 = 0
  . have hmod : i % (512 / 64) = i := by omega
    have hdisk : fullDisk (i / (512 / 64) + 32) = putDinode (fun _ => 0) 2 fullInode := by
      rw [fullDisk, if_pos (by omega)]
    rw [hdisk, hmod]
    by_cases h2 : i = 2
    . subst h2
      rw [getDinode_putDinode fullInode_fits]
      rfl
    . rw [getDinode_putDinode_of_ne h2, getDinode_zero, if_neg h2]
  . have hdisk : fullDisk (i / (512 / 64) + 32) = fun _ => 0 := by
      rw [fullDisk, if_neg (by omega), if_neg (by omega), if_neg (by omega)]
    rw [hdisk, getDinode_zero, if_neg (by omega)]

theorem full_bit : (∀ b < 200, bit mkfsLayout fullDisk b = true) ∧
    ∀ b < 1000, 200 ≤ b → bit mkfsLayout fullDisk b = false := by
  constructor <;> decide +kernel

-- The blocks of the file.
def fullSlot : Slot → Nat
  | .table => 59
  | .data bn => if bn < MAXFILE then 60 + bn else 0

theorem full_slot (sl : Slot) : slot fullDisk fullInode sl = fullSlot sl := by
  cases sl with
  | table => rfl
  | data bn =>
    have hN : NDIRECT = 12 := rfl
    have hmax : MAXFILE = 140 := rfl
    by_cases hdirect : bn < NDIRECT
    . rw [slot_direct hdirect]
      simp only [fullInode, fullSlot, hmax]
      rw [if_pos hdirect, if_pos (by omega)]
    . by_cases hbn : bn < MAXFILE
      . rw [slot_indirect (by omega) hbn (by decide)]
        have hentry : ∀ j < 128, get32 (fullDisk 59) (4 * j) = 72 + j := by decide +kernel
        have htable : fullInode.addrs NDIRECT = 59 := rfl
        simp only [fullSlot]
        rw [if_pos hbn, htable, hentry (bn - NDIRECT) (by omega)]
        omega
      . rw [slot_of_le (by omega)]
        simp only [fullSlot, if_neg hbn]

theorem full_own (x : Nat × Slot) : own mkfsLayout fullDisk full.ino x = if x.1 = 2 then fullSlot x.2 else 0 := by
  unfold own
  by_cases hx : x.1 < 200
  . rw [full_ino hx]
    by_cases h2 : x.1 = 2
    . rw [if_pos h2, if_pos h2, if_pos ⟨hx, by decide⟩, full_slot]
    . rw [if_neg h2, if_neg h2, if_neg (fun h => h.2 rfl)]
  . rw [if_neg (fun h => hx h.1), if_neg (by omega)]

theorem fullSlot_data {bn : Nat} (h : fullSlot (.data bn) ≠ 0) : bn < 140 ∧ fullSlot (.data bn) = 60 + bn := by
  have hmax : MAXFILE = 140 := rfl
  simp only [fullSlot] at h ⊢
  split at h
  . next hbn =>
    rw [if_pos hbn]
    omega
  . omega

theorem fullSlot_inj {s t : Slot} (h : fullSlot s ≠ 0) (heq : fullSlot s = fullSlot t) : s = t := by
  have ht := heq ▸ h
  have htable : fullSlot .table = 59 := rfl
  cases s with
  | table =>
    cases t with
    | table => rfl
    | data bn' =>
      have := fullSlot_data ht
      omega
  | data bn =>
    have := fullSlot_data h
    cases t with
    | table => omega
    | data bn' =>
      have := fullSlot_data ht
      rw [show bn = bn' by omega]

theorem fullSlot_range {s : Slot} (h : fullSlot s ≠ 0) : 59 ≤ fullSlot s ∧ fullSlot s < 200 := by
  cases s with
  | table => decide
  | data bn =>
    have := fullSlot_data h
    omega

theorem fullSlot_onto {b : Nat} (hlo : 59 ≤ b) (hhi : b < 200) : ∃ s, fullSlot s = b := by
  by_cases htable : b = 59
  . exact ⟨.table, htable.symm⟩
  . have hmax : MAXFILE = 140 := rfl
    refine ⟨.data (b - 60), ?_⟩
    simp only [fullSlot]
    rw [if_pos (by omega)]
    omega

theorem full_ledger
    : Ledger 59 1000 (own mkfsLayout fullDisk full.ino) (fun b => bit mkfsLayout fullDisk b = true) [] := by
  have hown : own mkfsLayout fullDisk full.ino = fun x => if x.1 = 2 then fullSlot x.2 else 0 := funext full_own
  rw [hown]
  refine ⟨by decide, ?_, by simp, List.nodup_nil, ?_, by simp, ?_⟩
  . rintro ⟨i, s⟩ ⟨j, t⟩ hx heq
    dsimp only at hx heq
    by_cases hi : i = 2
    . rw [if_pos hi] at hx heq
      by_cases hj : j = 2
      . rw [if_pos hj] at heq
        rw [hi, hj, fullSlot_inj hx heq]
      . rw [if_neg hj] at heq
        exact absurd heq hx
    . rw [if_neg hi] at hx
      exact absurd rfl hx
  . rintro ⟨i, s⟩ hx
    dsimp only at hx ⊢
    by_cases hi : i = 2
    . rw [if_pos hi] at hx ⊢
      have := fullSlot_range hx
      omega
    . rw [if_neg hi] at hx
      exact absurd rfl hx
  . intro b hlo hhi
    simp only [List.not_mem_nil, or_false]
    by_cases hb : b < 200
    . obtain ⟨s, hs⟩ := fullSlot_onto hlo hb
      exact ⟨fun _ => ⟨(2, s), hs⟩, fun _ => full_bit.1 b hb⟩
    . constructor
      . intro hbit
        rw [full_bit.2 b hhi (by omega)] at hbit
        cases hbit
      . rintro ⟨⟨i, s⟩, hx⟩
        dsimp only at hx
        split at hx
        . have := fullSlot_range (s := s) (by omega)
          omega
        . omega

theorem full_wf : WellFormed mkfsLayout full where
  owned := ⟨full_ledger, fun b hb => full_bit.1 b (Nat.lt_trans hb (by decide))⟩
  coherent _ _ := rfl
  mapped i hi ht bn hbn := by
    rw [full_ino hi] at ht hbn ⊢
    by_cases h2 : i = 2
    . rw [if_pos h2] at hbn ⊢
      have hlt : bn < MAXFILE := Nat.lt_of_mul_lt_mul_right hbn
      have : slot full.disk fullInode (.data bn) = 60 + bn := by
        rw [show full.disk = fullDisk from rfl, full_slot]
        exact if_pos hlt
      omega
    . rw [if_neg h2] at ht
      exact absurd rfl ht

-- An open file on it, one chunk before the end.
def fullFile : File where
  type := .inode
  ref := 1
  readable := false
  writable := true
  pipe := 0
  ip := 2
  off := MAXFILE * BSIZE - MAXCHUNK

def noDevsw : Devsw := ⟨fun _ => none, fun _ => none⟩

theorem full_isFile : full.isFile mkfsLayout fullFile.ip := by
  unfold State.isFile
  rw [show full.ino fullFile.ip = fullInode from full_ino (i := 2) (by decide)]
  decide

theorem full_size : (full.ino fullFile.ip).size = 71680 := by
  rw [show full.ino fullFile.ip = fullInode from full_ino (i := 2) (by decide)]
  rfl

-- The first of two chunks is in the file, the second one beyond the largest size.
theorem full_returns (src : Memory) : ∃ a, filewrite mkfsLayout noDevsw 0 full fullFile src 3072 = .ok a := by
  obtain ⟨hi, ht, hdev⟩ := full_isFile
  obtain ⟨a, ha⟩ : ∃ a, writeSection mkfsLayout noDevsw full fullFile (fun k => src (0 + k)) 1536 = .ok a := by
    obtain ⟨r, hr⟩ : ∃ r, writei mkfsLayout noDevsw full.disk fullFile.ip (full.ino fullFile.ip)
        (fun k => src (0 + k)) fullFile.off 1536 = .ok r :=
      writei_within full_wf hi ht hdev (by rw [full_size]; decide)
    unfold writeSection
    rw [hr]
    exact ⟨_, rfl⟩
  have hacc : Accepts (full.ino fullFile.ip).size (fullFile.off + 0) 1536 := by
    rw [full_size]
    decide
  obtain ⟨hret, hstored⟩ := (Stored.refl src full_wf).section_accepted full_isFile hacc (by decide) ha
  have hrefused : writeSection mkfsLayout noDevsw a.s a.f (fun k => src (1536 + k)) 1536 = .ok ⟨a.s, a.f, -1⟩ := by
    apply writeSection_refused _ _ hstored full_isFile (by decide) (by decide)
    rw [hstored.size (by decide), full_size]
    decide
  have hloop : filewriteLoop mkfsLayout noDevsw full fullFile src 3072 0 = .ok ⟨a.s, a.f, 1536⟩ := by
    rw [filewriteLoop_accepted (i := 0) (n := 3072) (by omega) ha hret]
    exact filewriteLoop_refused (i := 1536) (n := 3072) (by omega) hrefused
  refine ⟨⟨a.s, a.f, -1⟩, ?_⟩
  rw [filewrite_inode rfl rfl, show (3072 : Int).toNat = 3072 from rfl, hloop]
  rfl

theorem full_byte : (content full.disk (full.ino fullFile.ip)).getD 70144 0 = 0 := by
  rw [show full.ino fullFile.ip = fullInode from full_ino (i := 2) (by decide), content, List.getD_eq_getElem?_getD,
    List.getElem?_map, List.getElem?_range (by decide)]
  have hslot : slot full.disk fullInode (.data (70144 / BSIZE)) = 197 := full_slot _
  rw [Option.map_some, Option.getD_some, fileByte, hslot]
  rfl

end Xv6.Fs
