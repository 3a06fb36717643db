import Mathlib.Data.Finset.Card
import Xv6.Lib.Trace
import Xv6.File.Access

/-!
The functions of `fs.c` under a write, once more with the blocks that they hand to `log_write`, and how many of these
one transaction of `filewrite` logs.
-/

namespace Xv6.Fs

open Bytes

namespace Logged

variable (sb : Superblock)

def bzero (disk : Disk) (b : Nat) : Trace Nat String Disk := do
  Trace.emit [b]
  return Fs.bzero disk b

def balloc (disk : Disk) : Trace Nat String (Disk × Nat) :=
  match (List.range sb.size).find? fun b => bit sb disk b = false with
  | some b => do
    let disk := Function.update disk (BBLOCK sb b) (setBit (disk (BBLOCK sb b)) (b % BPB))
    Trace.emit [BBLOCK sb b]
    let disk ← bzero disk b
    return (disk, b)
  | none => .stop "balloc: out of blocks"

def iupdate (disk : Disk) (inum : Nat) (ip : Dinode) : Trace Nat String Disk := do
  Trace.emit [IBLOCK sb inum]
  return Fs.iupdate sb disk inum ip

def bmapTable (disk : Disk) (ip : Dinode) : Trace Nat String (Disk × Dinode) :=
  if ip.addrs NDIRECT = 0 then do
    let (disk, addr) ← balloc sb disk
    return (disk, setAddr ip NDIRECT addr)
  else pure (disk, ip)

def bmapEntry (disk : Disk) (table j : Nat) : Trace Nat String (Disk × Nat) :=
  if get32 (disk table) (4 * j) = 0 then do
    let (disk, addr) ← balloc sb disk
    Trace.emit [table]
    return (Function.update disk table (put32 (disk table) (4 * j) addr), addr)
  else pure (disk, get32 (disk table) (4 * j))

def bmap (disk : Disk) (ip : Dinode) (bn : Nat) : Trace Nat String (Disk × Dinode × Nat) :=
  if bn < NDIRECT then
    if ip.addrs bn = 0 then do
      let (disk, addr) ← balloc sb disk
      return (disk, setAddr ip bn addr, addr)
    else pure (disk, ip, ip.addrs bn)
  else if bn - NDIRECT < NINDIRECT then do
    let (disk, ip) ← bmapTable sb disk ip
    let (disk, addr) ← bmapEntry sb disk (ip.addrs NDIRECT) (bn - NDIRECT)
    return (disk, ip, addr)
  else .stop "bmap: out of range"

def writeLoop (disk : Disk) (ip : Dinode) (src : Memory) (off n : Nat) : Trace Nat String (Disk × Dinode) :=
  if n = 0 then pure (disk, ip)
  else do
    let (disk, ip, addr) ← bmap sb disk ip (off / BSIZE)
    let m := min n (BSIZE - off % BSIZE)
    let disk := Function.update disk addr (copy (disk addr) (off % BSIZE) m src)
    Trace.emit [addr]
    writeLoop disk ip (fun k => src (m + k)) (off + m) (n - m)
termination_by n
decreasing_by
  have := Nat.mod_lt off (show BSIZE > 0 by decide)
  omega

-- What the devices do is not logged.
def writei (devsw : Devsw) (disk : Disk) (inum : Nat) (ip : Dinode) (src : Memory) (off n : Nat)
    : Trace Nat String WriteResult :=
  if ip.type = T_DEV then
    match if ip.major < NDEV then devsw.write ip.major else none with
    | none => pure ⟨disk, ip, -1⟩
    | some f => pure ⟨disk, ip, f src n⟩
  else if off > ip.size ∨ (off + n) % 2 ^ 32 < off then pure ⟨disk, ip, -1⟩
  else if (off + n) % 2 ^ 32 > MAXFILE * BSIZE then pure ⟨disk, ip, -1⟩
  else do
    let (disk, ip) ← writeLoop sb disk ip src off n
    if n > 0 ∧ off + n > ip.size then
      let ip := { ip with size := off + n }
      let disk ← iupdate sb disk inum ip
      return ⟨disk, ip, n⟩
    else return ⟨disk, ip, n⟩

section

variable {sb} {disk disk' : Disk} {ip ip' : Dinode} {b bn table j inum : Nat}

theorem balloc_val (disk : Disk) : (balloc sb disk).val = Fs.balloc sb disk := by
  unfold balloc Fs.balloc
  cases (List.range sb.size).find? fun b => bit sb disk b = false with
  | some b => rfl
  | none => rfl

theorem bmapTable_val (disk : Disk) (ip : Dinode) : (bmapTable sb disk ip).val = Fs.bmapTable sb disk ip := by
  unfold bmapTable Fs.bmapTable
  split
  . rw [Trace.val_bind, balloc_val]
    rfl
  . rfl

theorem bmapEntry_val (disk : Disk) (table j : Nat)
    : (bmapEntry sb disk table j).val = Fs.bmapEntry sb disk table j := by
  unfold bmapEntry Fs.bmapEntry
  split
  . rw [Trace.val_bind, balloc_val]
    rfl
  . rfl

theorem bmap_val (disk : Disk) (ip : Dinode) (bn : Nat) : (bmap sb disk ip bn).val = Fs.bmap sb disk ip bn := by
  unfold bmap Fs.bmap
  split
  . split
    . rw [Trace.val_bind, balloc_val]
      rfl
    . rfl
  . split
    . rw [Trace.val_bind, bmapTable_val]
      congr 1
      funext x
      rw [Trace.val_bind, bmapEntry_val]
      rfl
    . rfl

theorem writeLoop_val (disk : Disk) (ip : Dinode) (src : Memory) (off n : Nat)
    : (writeLoop sb disk ip src off n).val = Fs.writeLoop sb disk ip src off n := by
  induction n using Nat.strong_induction_on generalizing disk ip src off with
  | _ n ih =>
    rw [writeLoop, Fs.writeLoop]
    split
    . rfl
    . next hn =>
      rw [Trace.val_bind, bmap_val]
      congr 1
      funext x
      rw [Trace.val_bind]
      apply ih
      have := Nat.mod_lt off (show BSIZE > 0 by decide)
      omega

theorem writei_val (devsw : Devsw) (disk : Disk) (inum : Nat) (ip : Dinode) (src : Memory) (off n : Nat)
    : (writei sb devsw disk inum ip src off n).val = Fs.writei sb devsw disk inum ip src off n := by
  unfold writei Fs.writei
  split
  . generalize (if ip.major < NDEV then devsw.write ip.major else none) = g
    cases g <;> rfl
  . split
    . rfl
    . split
      . rfl
      . rw [Trace.val_bind, writeLoop_val]
        congr 1
        funext x
        dsimp only
        split <;> rfl

-- What is logged, by how the function ends. An allocation logs a bitmap block and the block itself.
theorem balloc_emits (sb : Superblock) (disk : Disk)
    : match (balloc sb disk).val with
      | .ok (_, b) => (balloc sb disk).emits = [BBLOCK sb b, b]
      | .error _ => (balloc sb disk).emits = [] := by
  unfold balloc
  cases (List.range sb.size).find? fun b => bit sb disk b = false with
  | some b => rfl
  | none => rfl

theorem balloc_emits_ok (h : (balloc sb disk).val = .ok (disk', b)) : (balloc sb disk).emits = [BBLOCK sb b, b] := by
  have := balloc_emits sb disk
  rw [h] at this
  exact this

theorem balloc_emits_error {msg : String} (h : (balloc sb disk).val = .error msg) : (balloc sb disk).emits = [] := by
  have := balloc_emits sb disk
  rw [h] at this
  exact this

theorem bmapTable_of_table (h : ip.addrs NDIRECT ≠ 0) : bmapTable sb disk ip = pure (disk, ip) :=
  if_neg h

theorem bmapTable_emits (sb : Superblock) (disk : Disk) (h : ip.addrs NDIRECT = 0)
    : (∃ msg, (bmapTable sb disk ip).val = .error msg ∧ (bmapTable sb disk ip).emits = []) ∨
      ∃ disk' ip', (bmapTable sb disk ip).val = .ok (disk', ip') ∧
        (bmapTable sb disk ip).emits = [BBLOCK sb (ip'.addrs NDIRECT), ip'.addrs NDIRECT] := by
  unfold bmapTable
  rw [if_pos h]
  cases hb : (balloc sb disk).val with
  | error msg =>
    left
    refine ⟨msg, ?_, ?_⟩
    . rw [Trace.val_bind, hb]
      rfl
    . rw [Trace.emits_bind_error hb, balloc_emits_error hb]
  | ok x =>
    right
    obtain ⟨disk', b⟩ := x
    refine ⟨disk', setAddr ip NDIRECT b, ?_, ?_⟩
    . rw [Trace.val_bind, hb]
      rfl
    . rw [Trace.emits_bind hb, balloc_emits_ok hb]
      simp [setAddr]

/-- An entry of the block `table`: at most a bitmap block, the block of the entry and `table` are logged. -/
theorem bmapEntry_emits (disk : Disk) (table j : Nat)
    : ∃ c b, (∀ w ∈ (bmapEntry sb disk table j).emits, w = c ∨ w = b ∨ w = table) ∧
        ∀ disk' addr, (bmapEntry sb disk table j).val = .ok (disk', addr) → b = addr := by
  unfold bmapEntry
  split
  . cases hb : (balloc sb disk).val with
    | error msg =>
      refine ⟨0, 0, ?_, ?_⟩
      . rw [Trace.emits_bind_error hb, balloc_emits_error hb]
        nofun
      . intro _ _ h
        rw [Trace.val_bind, hb] at h
        cases h
    | ok x =>
      obtain ⟨disk', b⟩ := x
      refine ⟨BBLOCK sb b, b, ?_, ?_⟩
      . rw [Trace.emits_bind hb, balloc_emits_ok hb]
        intro w hw
        have : w ∈ [BBLOCK sb b, b] ++ [table] := hw
        simpa using this
      . intro _ _ h
        rw [Trace.val_bind, hb] at h
        cases h
        rfl
  . refine ⟨0, get32 (disk table) (4 * j), nofun, ?_⟩
    intro _ _ h
    cases h
    rfl

theorem bmap_emits_direct (sb : Superblock) (disk : Disk) (ip : Dinode) (hbn : bn < NDIRECT)
    : ∃ c b, (∀ w ∈ (bmap sb disk ip bn).emits, w = c ∨ w = b) ∧
        ∀ disk' ip' addr, (bmap sb disk ip bn).val = .ok (disk', ip', addr) →
          b = addr ∧ ip'.addrs NDIRECT = ip.addrs NDIRECT := by
  unfold bmap
  rw [if_pos hbn]
  split
  . cases hb : (balloc sb disk).val with
    | error msg =>
      refine ⟨0, 0, ?_, ?_⟩
      . rw [Trace.emits_bind_error hb, balloc_emits_error hb]
        nofun
      . intro _ _ _ h
        rw [Trace.val_bind, hb] at h
        cases h
    | ok x =>
      obtain ⟨disk', b⟩ := x
      refine ⟨BBLOCK sb b, b, ?_, ?_⟩
      . rw [Trace.emits_bind hb, balloc_emits_ok hb]
        intro w hw
        have : w ∈ [BBLOCK sb b, b] ++ [] := hw
        simpa using this
      . intro _ _ _ h
        rw [Trace.val_bind, hb] at h
        cases h
        exact ⟨rfl, Function.update_of_ne (Nat.ne_of_gt hbn) _ _⟩
  . refine ⟨0, ip.addrs bn, nofun, ?_⟩
    intro _ _ _ h
    cases h
    exact ⟨rfl, rfl⟩

/-- Behind an indirect block that is there. -/
theorem bmap_emits_table (sb : Superblock) (disk : Disk) (bn : Nat) (h : ip.addrs NDIRECT ≠ 0)
    : ∃ c b, (∀ w ∈ (bmap sb disk ip bn).emits, w = c ∨ w = b ∨ w = ip.addrs NDIRECT) ∧
        ∀ disk' ip' addr, (bmap sb disk ip bn).val = .ok (disk', ip', addr) →
          b = addr ∧ ip'.addrs NDIRECT = ip.addrs NDIRECT := by
  by_cases hbn : bn < NDIRECT
  . obtain ⟨c, b, hemits, hval⟩ := bmap_emits_direct sb disk ip hbn
    refine ⟨c, b, ?_, hval⟩
    intro w hw
    rcases hemits w hw with hc | hb
    . exact .inl hc
    . exact .inr (.inl hb)
  . unfold bmap
    rw [if_neg hbn]
    split
    . rw [bmapTable_of_table h, Trace.pure_bind]
      obtain ⟨c, b, hemits, hval⟩ := bmapEntry_emits disk (ip.addrs NDIRECT) (bn - NDIRECT)
      refine ⟨c, b, ?_, ?_⟩
      . rw [Trace.emits_bind_of_pure _ fun _ => rfl]
        exact hemits
      . intro _ _ _ hok
        obtain ⟨⟨disk', addr⟩, hentry, hok⟩ := Trace.val_bind_eq_ok hok
        cases hok
        exact ⟨hval _ _ hentry, rfl⟩
    . exact ⟨0, 0, nofun, nofun⟩

/-- An indirect block that is allocated: its bitmap block is logged too. -/
theorem bmap_emits_noTable (sb : Superblock) (disk : Disk) (hbn : NDIRECT ≤ bn) (h : ip.addrs NDIRECT = 0)
    : ∃ d t c b, (∀ w ∈ (bmap sb disk ip bn).emits, w = d ∨ w = t ∨ w = c ∨ w = b) ∧
        ∀ disk' ip' addr, (bmap sb disk ip bn).val = .ok (disk', ip', addr) → b = addr ∧ t = ip'.addrs NDIRECT := by
  unfold bmap
  rw [if_neg (Nat.not_lt.mpr hbn)]
  split
  . rcases bmapTable_emits sb disk h with ⟨msg, hval, hemits⟩ | ⟨disk1, ip1, hval, hemits⟩
    . refine ⟨0, 0, 0, 0, ?_, ?_⟩
      . rw [Trace.emits_bind_error hval, hemits]
        nofun
      . intro _ _ _ hok
        rw [Trace.val_bind, hval] at hok
        cases hok
    . obtain ⟨c, b, hentry, hb⟩ := bmapEntry_emits disk1 (ip1.addrs NDIRECT) (bn - NDIRECT)
      refine ⟨BBLOCK sb (ip1.addrs NDIRECT), ip1.addrs NDIRECT, c, b, ?_, ?_⟩
      . rw [Trace.emits_bind hval, hemits]
        dsimp only
        rw [Trace.emits_bind_of_pure _ fun _ => rfl]
        intro w hw
        rcases List.mem_append.mp hw with hw | hw
        . simp only [List.mem_cons, List.not_mem_nil, or_false] at hw
          rcases hw with hd | ht
          . exact .inl hd
          . exact .inr (.inl ht)
        . rcases hentry w hw with hc | hb | ht
          . exact .inr (.inr (.inl hc))
          . exact .inr (.inr (.inr hb))
          . exact .inr (.inl ht)
      . intro _ _ _ hok
        rw [Trace.val_bind, hval] at hok
        obtain ⟨⟨disk', addr⟩, hentry, hok⟩ := Trace.val_bind_eq_ok hok
        cases hok
        exact ⟨hb _ _ hentry, rfl⟩
  . exact ⟨0, 0, 0, 0, nofun, nofun⟩

-- The number of rounds of the loop of `writei`.
def rounds (off n : Nat) : Nat :=
  if n = 0 then 0 else (off + n - 1) / BSIZE - off / BSIZE + 1

theorem rounds_succ {off n m : Nat} (hn : n ≠ 0) (hm : m = min n (BSIZE - off % BSIZE))
    : rounds off n = rounds (off + m) (n - m) + 1 := by
  unfold rounds BSIZE at *
  rw [if_neg hn]
  split <;> omega

theorem rounds_le {off n : Nat} (hoff : off % BSIZE = 0) (hn : n ≤ MAXCHUNK) : rounds off n ≤ 3 := by
  have hmax : MAXCHUNK = 1536 := rfl
  unfold rounds BSIZE at *
  split <;> omega

theorem card_insert_two (S : Finset Nat) (c b : Nat) : (insert c (insert b S)).card ≤ S.card + 2 := by
  have h1 := Finset.card_insert_le c (insert b S)
  have h2 := Finset.card_insert_le b S
  omega

-- `E` is what a round logs, apart from the block `b` that it writes.
theorem card_table {E : List Nat} (rest : List Nat) {c b t : Nat} (h : ∀ w ∈ E, w = c ∨ w = b ∨ w = t)
    : (insert t (E ++ b :: rest).toFinset).card ≤ (insert t rest.toFinset).card + 2 := by
  have hsub : insert t (E ++ b :: rest).toFinset ⊆ insert c (insert b (insert t rest.toFinset)) := by
    intro w hw
    simp only [Finset.mem_insert, List.mem_toFinset, List.mem_append, List.mem_cons] at hw ⊢
    rcases hw with ht | hw | hb | hrest
    . exact .inr (.inr (.inl ht))
    . rcases h w hw with hc | hb | ht
      . exact .inl hc
      . exact .inr (.inl hb)
      . exact .inr (.inr (.inl ht))
    . exact .inr (.inl hb)
    . exact .inr (.inr (.inr hrest))
  exact (Finset.card_le_card hsub).trans (card_insert_two _ c b)

theorem card_direct {E : List Nat} (rest : List Nat) {c b : Nat} (h : ∀ w ∈ E, w = c ∨ w = b)
    : (E ++ b :: rest).toFinset.card ≤ rest.toFinset.card + 2 := by
  have hsub : (E ++ b :: rest).toFinset ⊆ insert c (insert b rest.toFinset) := by
    intro w hw
    simp only [Finset.mem_insert, List.mem_toFinset, List.mem_append, List.mem_cons] at hw ⊢
    rcases hw with hw | hb | hrest
    . rcases h w hw with hc | hb
      . exact .inl hc
      . exact .inr (.inl hb)
    . exact .inr (.inl hb)
    . exact .inr (.inr hrest)
  exact (Finset.card_le_card hsub).trans (card_insert_two _ c b)

theorem card_noTable {E : List Nat} (rest : List Nat) {d t c b : Nat}
    (h : ∀ w ∈ E, w = d ∨ w = t ∨ w = c ∨ w = b)
    : (E ++ b :: rest).toFinset.card ≤ (insert t rest.toFinset).card + 3 := by
  have hsub : (E ++ b :: rest).toFinset ⊆ insert d (insert c (insert b (insert t rest.toFinset))) := by
    intro w hw
    simp only [Finset.mem_insert, List.mem_toFinset, List.mem_append, List.mem_cons] at hw ⊢
    rcases hw with hw | hb | hrest
    . rcases h w hw with hd | ht | hc | hb
      . exact .inl hd
      . exact .inr (.inr (.inr (.inl ht)))
      . exact .inr (.inl hc)
      . exact .inr (.inr (.inl hb))
    . exact .inr (.inr (.inl hb))
    . exact .inr (.inr (.inr (.inr hrest)))
  have h1 := Finset.card_le_card hsub
  have h2 := Finset.card_insert_le d (insert c (insert b (insert t rest.toFinset)))
  have h3 := card_insert_two (insert t rest.toFinset) c b
  omega

theorem toFinset_subset_append (E rest : List Nat) : E.toFinset ⊆ (E ++ rest).toFinset := by
  rw [List.toFinset_append]
  exact Finset.subset_union_left

theorem writeLoop_emits_error {src : Memory} {off n : Nat} {msg : String} (hn : n ≠ 0)
    (h : (bmap sb disk ip (off / BSIZE)).val = .error msg)
    : (writeLoop sb disk ip src off n).emits = (bmap sb disk ip (off / BSIZE)).emits := by
  rw [writeLoop, if_neg hn]
  exact Trace.emits_bind_error h _

theorem writeLoop_emits_ok {off n m : Nat} (src : Memory) (hn : n ≠ 0) (hm : m = min n (BSIZE - off % BSIZE))
    (h : (bmap sb disk ip (off / BSIZE)).val = .ok (disk', ip', b))
    : ∃ disk2 src', disk2 = Function.update disk' b (copy (disk' b) (off % BSIZE) m src) ∧
        (writeLoop sb disk ip src off n).emits =
          (bmap sb disk ip (off / BSIZE)).emits ++ b :: (writeLoop sb disk2 ip' src' (off + m) (n - m)).emits := by
  subst hm
  refine ⟨_, fun k => src (min n (BSIZE - off % BSIZE) + k), rfl, ?_⟩
  rw [writeLoop, if_neg hn, Trace.emits_bind h]
  rfl

/-- With an indirect block, a round logs two blocks more at most. -/
theorem writeLoop_card_table (sb : Superblock) (disk : Disk) (src : Memory) (off n : Nat) (h : ip.addrs NDIRECT ≠ 0)
    : (insert (ip.addrs NDIRECT) (writeLoop sb disk ip src off n).emits.toFinset).card ≤ 2 * rounds off n + 1 := by
  induction n using Nat.strong_induction_on generalizing disk ip off src with
  | _ n ih =>
    by_cases hn : n = 0
    . rw [writeLoop, if_pos hn]
      simp
    . have hmod := Nat.mod_lt off (show BSIZE > 0 by decide)
      obtain ⟨m, hm⟩ : ∃ m, m = min n (BSIZE - off % BSIZE) := ⟨_, rfl⟩
      obtain ⟨c, b, hemits, hval⟩ := bmap_emits_table sb disk (off / BSIZE) h
      rw [rounds_succ hn hm]
      cases hb : (bmap sb disk ip (off / BSIZE)).val with
      | error msg =>
        rw [writeLoop_emits_error hn hb]
        have hcard := card_table [] hemits
        have hsub := Finset.insert_subset_insert (ip.addrs NDIRECT)
          (toFinset_subset_append (bmap sb disk ip (off / BSIZE)).emits [b])
        have := Finset.card_le_card hsub
        simp only [List.toFinset_nil, insert_empty_eq, Finset.card_singleton] at hcard
        omega
      | ok x =>
        obtain ⟨disk1, ip1, addr⟩ := x
        obtain ⟨rfl, htable⟩ := hval _ _ _ hb
        obtain ⟨disk2, src', -, hloop⟩ := writeLoop_emits_ok src hn hm hb
        have hrest : (insert (ip1.addrs NDIRECT) (writeLoop sb disk2 ip1 src' (off + m) (n - m)).emits.toFinset).card ≤
            2 * rounds (off + m) (n - m) + 1 :=
          ih _ (by omega) disk2 src' (off + m) (by rwa [htable])
        rw [hloop]
        rw [htable] at hrest
        have := card_table (writeLoop sb disk2 ip1 src' (off + m) (n - m)).emits hemits
        omega

theorem writeLoop_card {ino : Nat → Dinode} (src : Memory) (off n : Nat) (h : Owned sb disk ino [])
    (hlive : inum < sb.ninodes ∧ (ino inum).type ≠ 0) (hfits : (ino inum).Fits)
    : (writeLoop sb disk (ino inum) src off n).emits.toFinset.card ≤ 2 * rounds off n + 2 := by
  induction n using Nat.strong_induction_on generalizing disk ino off src with
  | _ n ih =>
    by_cases htable : (ino inum).addrs NDIRECT ≠ 0
    . have hsub := Finset.subset_insert ((ino inum).addrs NDIRECT) (writeLoop sb disk (ino inum) src off n).emits.toFinset
      have := Finset.card_le_card hsub
      have := writeLoop_card_table sb disk src off n htable
      omega
    . rw [ne_eq, not_not] at htable
      by_cases hn : n = 0
      . rw [writeLoop, if_pos hn]
        simp
      . have hmod := Nat.mod_lt off (show BSIZE > 0 by decide)
        obtain ⟨m, hm⟩ : ∃ m, m = min n (BSIZE - off % BSIZE) := ⟨_, rfl⟩
        rw [rounds_succ hn hm]
        by_cases hdirect : off / BSIZE < NDIRECT
        . obtain ⟨c, b, hemits, hval⟩ := bmap_emits_direct sb disk (ino inum) hdirect
          cases hb : (bmap sb disk (ino inum) (off / BSIZE)).val with
          | error msg =>
            rw [writeLoop_emits_error hn hb]
            have hcard := card_direct [] hemits
            have := Finset.card_le_card (toFinset_subset_append (bmap sb disk (ino inum) (off / BSIZE)).emits [b])
            simp only [List.toFinset_nil, Finset.card_empty] at hcard
            omega
          | ok x =>
            obtain ⟨disk1, ip1, addr⟩ := x
            obtain ⟨rfl, -⟩ := hval _ _ _ hb
            obtain ⟨disk2, src', hdisk2, hloop⟩ := writeLoop_emits_ok src hn hm hb
            rw [bmap_val] at hb
            obtain ⟨hwrites, -⟩ := writeRound_spec h hlive hfits hb (by omega) hdisk2
            have hself : Function.update ino inum ip1 inum = ip1 := Function.update_self _ _ _
            have hrest : (writeLoop sb disk2 ip1 src' (off + m) (n - m)).emits.toFinset.card ≤
                2 * rounds (off + m) (n - m) + 2 := by
              rw [← hself]
              exact ih _ (by omega) src' (off + m) hwrites.owned hwrites.live' (by rw [hself]; exact hwrites.fits)
            have := card_direct (writeLoop sb disk2 ip1 src' (off + m) (n - m)).emits hemits
            rw [hloop]
            omega
        . obtain ⟨d, t, c, b, hemits, hval⟩ :=
            bmap_emits_noTable sb disk (Nat.le_of_not_lt hdirect) htable
          cases hb : (bmap sb disk (ino inum) (off / BSIZE)).val with
          | error msg =>
            rw [writeLoop_emits_error hn hb]
            have hcard := card_noTable [] hemits
            have := Finset.card_le_card (toFinset_subset_append (bmap sb disk (ino inum) (off / BSIZE)).emits [b])
            simp only [List.toFinset_nil, insert_empty_eq, Finset.card_singleton] at hcard
            omega
          | ok x =>
            obtain ⟨disk1, ip1, addr⟩ := x
            obtain ⟨rfl, rfl⟩ := hval _ _ _ hb
            obtain ⟨disk2, src', -, hloop⟩ := writeLoop_emits_ok src hn hm hb
            rw [bmap_val] at hb
            obtain ⟨-, hslot, hne⟩ := bmap_spec h hlive hfits hb
            have htable1 : ip1.addrs NDIRECT ≠ 0 := by
              intro hzero
              rw [slot_no_table (by omega) hzero] at hslot
              exact hne hslot.symm
            have hrest := writeLoop_card_table sb disk2 src' (off + m) (n - m) htable1
            have := card_noTable (writeLoop sb disk2 ip1 src' (off + m) (n - m)).emits hemits
            rw [hloop]
            omega

theorem bmap_of_mapped (sb : Superblock) (hbn : bn < MAXFILE) (h : slot disk ip (.data bn) ≠ 0)
    : bmap sb disk ip bn = pure (disk, ip, slot disk ip (.data bn)) := by
  unfold bmap
  by_cases hdirect : bn < NDIRECT
  . rw [slot_direct hdirect] at h ⊢
    rw [if_pos hdirect, if_neg h]
  . have hN : NDIRECT ≤ bn := Nat.le_of_not_lt hdirect
    have htable : ip.addrs NDIRECT ≠ 0 := fun hzero => h (slot_no_table hN hzero)
    rw [slot_indirect hN hbn htable] at h ⊢
    have hlt : bn - NDIRECT < NINDIRECT := by
      unfold MAXFILE at hbn
      omega
    have hentry : bmapEntry sb disk (ip.addrs NDIRECT) (bn - NDIRECT) =
        pure (disk, get32 (disk (ip.addrs NDIRECT)) (4 * (bn - NDIRECT))) := if_neg h
    rw [if_neg hdirect, if_pos hlt, bmapTable_of_table htable, Trace.pure_bind]
    dsimp only
    rw [hentry]
    rfl

/-- The blocks that the loop logs for a chunk, without the inode. -/
theorem chunk_card {ino : Nat → Dinode} {off n : Nat} (src : Memory) (h : Owned sb disk ino [])
    (hlive : inum < sb.ninodes ∧ (ino inum).type ≠ 0) (hfits : (ino inum).Fits)
    (hmap : ∀ bn, bn * BSIZE < (ino inum).size → slot disk (ino inum) (.data bn) ≠ 0)
    (hoff : off ≤ (ino inum).size) (hmax : off + n ≤ MAXFILE * BSIZE) (hn : n ≤ MAXCHUNK)
    : (writeLoop sb disk (ino inum) src off n).emits.toFinset.card ≤ 9 := by
  by_cases haligned : off % BSIZE = 0
  . have hcard := writeLoop_card src off n h hlive hfits
    have := rounds_le haligned hn
    omega
  . by_cases hzero : n = 0
    . rw [writeLoop, if_pos hzero]
      simp
    . have hmod := Nat.mod_lt off (show BSIZE > 0 by decide)
      have hdiv := Nat.div_add_mod off BSIZE
      have hbn : off / BSIZE * BSIZE < off := by
        rw [Nat.mul_comm]
        omega
      have hmapped := hmap (off / BSIZE) (by omega)
      have hlt : off / BSIZE < MAXFILE := Nat.lt_of_mul_lt_mul_right (Nat.lt_of_lt_of_le hbn (by omega))
      have hb := bmap_of_mapped sb hlt hmapped
      obtain ⟨m, hm⟩ : ∃ m, m = min n (BSIZE - off % BSIZE) := ⟨_, rfl⟩
      have hval : (bmap sb disk (ino inum) (off / BSIZE)).val =
          .ok (disk, ino inum, slot disk (ino inum) (.data (off / BSIZE))) := by
        rw [hb]
        rfl
      obtain ⟨disk2, src', hdisk2, hloop⟩ := writeLoop_emits_ok src hzero hm hval
      rw [hb, Trace.emits_pure, List.nil_append] at hloop
      rw [bmap_val] at hval
      obtain ⟨hwrites, -⟩ := writeRound_spec h hlive hfits hval (by omega) hdisk2
      have hself : Function.update ino inum (ino inum) = ino := Function.update_eq_self _ _
      have howned := hwrites.owned
      rw [hself] at howned
      have hrest := writeLoop_card src' (off + m) (n - m) howned hlive hfits
      have hrounds : rounds (off + m) (n - m) ≤ 3 := by
        by_cases hlast : n ≤ BSIZE - off % BSIZE
        . rw [show n - m = 0 by omega]
          exact Nat.zero_le _
        . apply rounds_le _ (by omega)
          rw [show off + m = BSIZE * (off / BSIZE + 1) by rw [Nat.mul_succ]; omega]
          exact Nat.mul_mod_right _ _
      rw [hloop, List.toFinset_cons]
      have := Finset.card_insert_le (slot disk (ino inum) (.data (off / BSIZE)))
        (writeLoop sb disk2 (ino inum) src' (off + m) (n - m)).emits.toFinset
      omega

end

/--
The `writei` of one transaction of `filewrite` logs `MAXOPBLOCKS` different blocks at most, whatever it allocates and also
if it runs out of blocks on the way.
-/
theorem writei_logs (sb : Superblock) (devsw : Devsw) (s : State) (hs : WellFormed sb s) (inum : Nat)
    (hi : inum < sb.ninodes) (ht : (s.ino inum).type ≠ 0) (src : Memory) (off n : Nat)
    (hoff : off ≤ (s.ino inum).size) (hn : n ≤ MAXCHUNK)
    : (writei sb devsw s.disk inum (s.ino inum) src off n).val =
        Fs.writei sb devsw s.disk inum (s.ino inum) src off n ∧
      (writei sb devsw s.disk inum (s.ino inum) src off n).emits.toFinset.card ≤ MAXOPBLOCKS := by
  refine ⟨writei_val _ _ _ _ _ _ _, ?_⟩
  have hsize := hs.size_le hi ht
  have hbig : MAXFILE * BSIZE + MAXCHUNK < 2 ^ 32 := by decide
  have hwrap : (off + n) % 2 ^ 32 = off + n := Nat.mod_eq_of_lt (by omega)
  unfold writei
  split
  . generalize (if (s.ino inum).major < NDEV then devsw.write (s.ino inum).major else none) = g
    cases g <;> exact Nat.zero_le _
  . split
    . exact Nat.zero_le _
    . split
      . exact Nat.zero_le _
      . next hmax =>
        rw [hwrap] at hmax
        have hchunk := chunk_card src hs.owned ⟨hi, ht⟩ (hs.fits hi) (hs.mapped inum hi ht) hoff (by omega) hn
        have hsub : ∀ x : Trace Nat String WriteResult,
            x.Emits (fun w => w ∈ (writeLoop sb s.disk (s.ino inum) src off n).emits ∨ w = IBLOCK sb inum) →
              x.emits.toFinset.card ≤ MAXOPBLOCKS := by
          intro x hx
          have hinsert : x.emits.toFinset ⊆
              insert (IBLOCK sb inum) (writeLoop sb s.disk (s.ino inum) src off n).emits.toFinset := by
            intro w hw
            rw [Finset.mem_insert, List.mem_toFinset]
            exact (hx w (List.mem_toFinset.mp hw)).symm
          have h1 := Finset.card_le_card hinsert
          have h2 := Finset.card_insert_le (IBLOCK sb inum)
            (writeLoop sb s.disk (s.ino inum) src off n).emits.toFinset
          have hmaxop : MAXOPBLOCKS = 10 := rfl
          omega
        apply hsub
        apply Trace.Emits.bind_right
        rintro ⟨disk1, ip1⟩
        dsimp only
        split
        . intro w hw
          exact List.mem_singleton.mp hw
        . nofun

theorem writei_logs_fresh
    : (writei mkfsLayout ⟨fun _ => none, fun _ => none⟩ fresh.disk 2 (fresh.ino 2) (fun _ => 1) 0 1536).val =
        Fs.writei mkfsLayout ⟨fun _ => none, fun _ => none⟩ fresh.disk 2 (fresh.ino 2) (fun _ => 1) 0 1536 ∧
      (writei mkfsLayout ⟨fun _ => none, fun _ => none⟩ fresh.disk 2 (fresh.ino 2) (fun _ => 1) 0
        1536).emits.toFinset.card ≤ MAXOPBLOCKS :=
  writei_logs mkfsLayout ⟨fun _ => none, fun _ => none⟩ fresh fresh_wf 2 (by decide)
    (by rw [fresh_ino (by decide)]; decide) (fun _ => 1) 0 1536 (Nat.zero_le _) (by decide)

end Logged

end Xv6.Fs
