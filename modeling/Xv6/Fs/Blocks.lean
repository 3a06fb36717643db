import Xv6.Fs.Dirent
import Xv6.Fs.Trunc

/-!
Every block that is in use belongs to one place of one inode, in every run of the operations on inodes that get through.
-/

namespace Xv6.Fs

open Bytes Outcome

section

variable (sb : Superblock) (devsw : Devsw)

inductive BlockEvent where
  | writei (inum : Nat) (src : Memory) (off n : BitVec 32)
  | readi (inum : Nat) (off n : BitVec 32)
  | itrunc (inum : Nat)
  | ialloc (type : BitVec 16)
  | iput (inum : Nat) (valid : Bool) (ref : Nat)
  | dirlink (dinum : Nat) (name : List UInt8) (inum : Nat)

-- The inodes that the calls are for are allocated.
def BlockEvent.Valid (s : State) : BlockEvent → Prop
  | .writei inum _ _ _ | .readi inum _ _ | .itrunc inum | .iput inum _ _ | .dirlink inum _ _ =>
    inum < sb.ninodes ∧ (s.ino inum).type ≠ 0
  | .ialloc _ => True

instance BlockEvent.decidableValid (s : State) : (e : BlockEvent) → Decidable (e.Valid sb s)
  | .writei _ _ _ _ | .readi _ _ _ | .itrunc _ | .iput _ _ _ | .dirlink _ _ _ => inferInstanceAs (Decidable (_ ∧ _))
  | .ialloc _ => inferInstanceAs (Decidable True)

-- An inode that is not valid in the cache any more is read again from the disk.
def blockCall (s : State) : BlockEvent → Except String (State × Output)
  | .writei inum src off n => do
    let r ← writei sb devsw s.disk inum (s.ino inum) src off.toNat n.toNat
    return (⟨r.disk, Function.update s.ino inum r.ip⟩, .ret r.ret)
  | .readi inum off n => do
    let r ← readi sb devsw s.disk (s.ino inum) off.toNat n.toNat
    return (⟨r.disk, Function.update s.ino inum r.ip⟩, .data r.ret r.data)
  | .itrunc inum => do
    let (disk, ip) ← itrunc sb s.disk inum (s.ino inum)
    return (⟨disk, Function.update s.ino inum ip⟩, .ret 0)
  | .ialloc type => do
    let (disk, inum) ← ialloc sb s.disk type.toNat
    return (⟨disk, Function.update s.ino inum (dinode sb disk inum)⟩, .ret inum)
  | .iput inum valid ref => do
    let (disk, valid, _) ← iput sb s.disk inum (s.ino inum) valid ref
    let ip := if valid then s.ino inum else dinode sb disk inum
    return (⟨disk, Function.update s.ino inum ip⟩, .ret 0)
  | .dirlink dinum name inum => do
    let (disk, dp, ret) ← dirlink sb devsw s.disk dinum (s.ino dinum) name inum
    return (⟨disk, Function.update s.ino dinum dp⟩, .ret ret)

-- A call that panics is not a step.
def blockStep : Machine State BlockEvent Output := fun s e =>
  if e.Valid sb s then (blockCall sb devsw s e).toOption else none

-- A block of the data area is marked if and only if one place of an allocated inode refers to it.
def Once (s : State) : Prop :=
  ∀ b, sb.nmeta ≤ b → b < sb.size →
    (bit sb s.disk b = true ↔ ∃ x, own sb s.disk s.ino x = b ∧ ∀ y, own sb s.disk s.ino y = b → y = x)

end

variable {sb : Superblock} {devsw : Devsw} {s s' : State} {disk' : Disk} {ip' dp' : Dinode} {inum dinum off n : Nat}
  {src : Memory} {name : List UInt8} {o : Output} {msg : String}

theorem WellFormed.once (hs : WellFormed sb s) : Once sb s := by
  intro b hlo hhi
  rw [hs.owned.ledger.marked b hlo hhi]
  have hpos := hs.owned.ledger.pos
  constructor
  . rintro (⟨x, hx⟩ | hmem)
    . refine ⟨x, hx, fun y hy => ?_⟩
      apply hs.owned.ledger.inj
      . rw [hy]
        omega
      . rw [hx, hy]
    . cases hmem
  . rintro ⟨x, hx, -⟩
    exact .inl ⟨x, hx⟩

theorem writei_wf {r : WriteResult} (hs : WellFormed sb s) (hi : inum < sb.ninodes) (ht : (s.ino inum).type ≠ 0)
    (hoff : off < 2 ^ 32) (hn : n < 2 ^ 32) (hw : writei sb devsw s.disk inum (s.ino inum) src off n = .ok r)
    : WellFormed sb ⟨r.disk, Function.update s.ino inum r.ip⟩ := by
  by_cases hdev : (s.ino inum).type = T_DEV
  . unfold writei at hw
    rw [if_pos hdev] at hw
    split at hw <;> cases hw <;> rwa [Function.update_eq_self]
  . by_cases hacc : Accepts (s.ino inum).size off n
    . exact (writei_spec hs hi ht hdev hacc hw).2.1
    . rw [writei_rejects hdev hoff hn hacc] at hw
      cases hw
      rwa [Function.update_eq_self]

theorem writei_panic (hoff : off < 2 ^ 32) (hn : n < 2 ^ 32)
    (hw : writei sb devsw s.disk inum (s.ino inum) src off n = .error msg)
    : msg = "balloc: out of blocks" := by
  by_cases hdev : (s.ino inum).type = T_DEV
  . unfold writei at hw
    rw [if_pos hdev] at hw
    split at hw <;> cases hw
  . by_cases hacc : Accepts (s.ino inum).size off n
    . exact writei_error hw hacc.2.1
    . rw [writei_rejects hdev hoff hn hacc] at hw
      cases hw

theorem readi_ok (devsw : Devsw) (hs : WellFormed sb s) (hi : inum < sb.ninodes) (ht : (s.ino inum).type ≠ 0)
    (hoff : off < 2 ^ 32) (hn : n < 2 ^ 32)
    : ∃ r, readi sb devsw s.disk (s.ino inum) off n = .ok r ∧ r.disk = s.disk ∧ r.ip = s.ino inum := by
  by_cases hdev : (s.ino inum).type = T_DEV
  . unfold readi
    rw [if_pos hdev]
    split <;> exact ⟨_, rfl, rfl, rfl⟩
  . rw [readi_spec hs hi ht hdev hoff hn]
    split <;> exact ⟨_, rfl, rfl, rfl⟩

theorem dirlookupLoop_cases (devsw : Devsw) (name : List UInt8) (fuel : Nat) (hs : WellFormed sb s)
    (hi : dinum < sb.ninodes) (ht : (s.ino dinum).type ≠ 0)
    : dirlookupLoop sb devsw name fuel s.disk (s.ino dinum) off = .error "dirlookup read" ∨
      ∃ found, dirlookupLoop sb devsw name fuel s.disk (s.ino dinum) off = .ok (s.disk, s.ino dinum, found) := by
  induction fuel generalizing off with
  | zero => exact .inr ⟨none, rfl⟩
  | succ fuel ih =>
    unfold dirlookupLoop
    split
    . next hoff =>
      have hmax := hs.size_le hi ht
      have hbig : MAXFILE * BSIZE < 2 ^ 32 := by decide
      obtain ⟨r, hr, hdisk, hip⟩ := readi_ok devsw hs hi ht (show off < 2 ^ 32 by omega) (show DIRENT < 2 ^ 32 by decide)
      rw [hr, ok_bind]
      split
      . exact .inl rfl
      . dsimp only
        split
        . rw [hdisk, hip]
          exact .inr ⟨_, rfl⟩
        . rw [hdisk, hip]
          exact ih
    . exact .inr ⟨none, rfl⟩

theorem dirlookup_cases (devsw : Devsw) (name : List UInt8) (hs : WellFormed sb s) (hi : dinum < sb.ninodes)
    (ht : (s.ino dinum).type ≠ 0)
    : (∃ msg, dirlookup sb devsw s.disk (s.ino dinum) name = .error msg ∧ msg ≠ "freeing free block") ∨
      ∃ found, dirlookup sb devsw s.disk (s.ino dinum) name = .ok (s.disk, s.ino dinum, found) := by
  unfold dirlookup
  split
  . exact .inl ⟨_, rfl, by decide⟩
  . rcases dirlookupLoop_cases devsw name _ hs hi ht with h | h
    . exact .inl ⟨_, h, by decide⟩
    . exact .inr h

theorem dirlinkLoop_cases (devsw : Devsw) (fuel : Nat) (hs : WellFormed sb s) (hi : dinum < sb.ninodes)
    (ht : (s.ino dinum).type ≠ 0) (hoff : off < (s.ino dinum).size + DIRENT)
    : dirlinkLoop sb devsw fuel s.disk (s.ino dinum) off = .error "dirlink read" ∨
      ∃ off' < 2 ^ 32, dirlinkLoop sb devsw fuel s.disk (s.ino dinum) off = .ok (s.disk, s.ino dinum, off') := by
  have hmax := hs.size_le hi ht
  have hbig : MAXFILE * BSIZE + DIRENT < 2 ^ 32 := by decide
  induction fuel generalizing off with
  | zero => exact .inr ⟨off, by omega, rfl⟩
  | succ fuel ih =>
    unfold dirlinkLoop
    split
    . next hlt =>
      obtain ⟨r, hr, hdisk, hip⟩ := readi_ok devsw hs hi ht (show off < 2 ^ 32 by omega) (show DIRENT < 2 ^ 32 by decide)
      rw [hr, ok_bind]
      split
      . exact .inl rfl
      . split
        . rw [hdisk, hip]
          exact .inr ⟨off, by omega, rfl⟩
        . rw [hdisk, hip]
          exact ih (by omega)
    . exact .inr ⟨off, by omega, rfl⟩

theorem writeDirent_wf {de : Dirent} (hs : WellFormed sb s) (hi : dinum < sb.ninodes) (ht : (s.ino dinum).type ≠ 0)
    (hoff : off < 2 ^ 32) (hw : writeDirent sb devsw s.disk dinum (s.ino dinum) de off msg = .ok (disk', dp'))
    : WellFormed sb ⟨disk', Function.update s.ino dinum dp'⟩ := by
  obtain ⟨r, hr, hw⟩ := bind_eq_ok hw
  have := writei_wf hs hi ht hoff (by decide) hr
  split at hw <;> cases hw
  exact this

theorem writeDirent_panic {de : Dirent} (hoff : off < 2 ^ 32) (hmsg : msg ≠ "freeing free block")
    : writeDirent sb devsw s.disk dinum (s.ino dinum) de off msg ≠ .error "freeing free block" := by
  apply bind_ne_error
  . intro h
    exact absurd (writei_panic hoff (by decide) h) (by decide)
  . intro r _
    split
    . intro h
      cases h
      exact hmsg rfl
    . intro h
      cases h

theorem dirlink_wf {ret : Int} {inum : Nat} (hs : WellFormed sb s) (hi : dinum < sb.ninodes)
    (ht : (s.ino dinum).type ≠ 0)
    (h : dirlink sb devsw s.disk dinum (s.ino dinum) name inum = .ok (disk', dp', ret))
    : WellFormed sb ⟨disk', Function.update s.ino dinum dp'⟩ := by
  unfold dirlink at h
  rcases dirlookup_cases devsw name hs hi ht with ⟨msg, hlookup, -⟩ | ⟨found, hlookup⟩
  . rw [hlookup] at h
    cases h
  . rw [hlookup, ok_bind] at h
    dsimp only at h
    cases found with
    | some x =>
      cases h
      rwa [Function.update_eq_self]
    | none =>
      dsimp only at h
      rcases dirlinkLoop_cases devsw ((s.ino dinum).size + 1) hs hi ht (Nat.add_pos_right _ (by decide))
        with hloop | ⟨off, hoff, hloop⟩
      . rw [hloop] at h
        cases h
      . rw [hloop, ok_bind] at h
        obtain ⟨⟨disk1, dp1⟩, hw, h⟩ := bind_eq_ok h
        cases h
        exact writeDirent_wf hs hi ht hoff hw

theorem dirlink_panic (name : List UInt8) (inum : Nat) (hs : WellFormed sb s) (hi : dinum < sb.ninodes)
    (ht : (s.ino dinum).type ≠ 0)
    : dirlink sb devsw s.disk dinum (s.ino dinum) name inum ≠ .error "freeing free block" := by
  unfold dirlink
  rcases dirlookup_cases devsw name hs hi ht with ⟨msg, hlookup, hmsg⟩ | ⟨found, hlookup⟩
  . rw [hlookup]
    intro h
    cases h
    exact hmsg rfl
  . rw [hlookup, ok_bind]
    dsimp only
    cases found with
    | some x =>
      intro h
      cases h
    | none =>
      dsimp only
      rcases dirlinkLoop_cases devsw ((s.ino dinum).size + 1) hs hi ht (Nat.add_pos_right _ (by decide))
        with hloop | ⟨off, hoff, hloop⟩
      . rw [hloop]
        intro h
        exact absurd (Except.error.inj h) (by decide)
      . rw [hloop, ok_bind]
        apply bind_ne_error
        . exact writeDirent_panic hoff (by decide)
        . intro a _ h
          cases h

theorem iput_spec (valid : Bool) (ref : Nat) (hs : WellFormed sb s) (hi : inum < sb.ninodes) (ht : (s.ino inum).type ≠ 0)
    : ∃ disk' valid' ref', iput sb s.disk inum (s.ino inum) valid ref = .ok (disk', valid', ref') ∧
      WellFormed sb ⟨disk', Function.update s.ino inum (if valid' then s.ino inum else dinode sb disk' inum)⟩ := by
  unfold iput
  split
  . obtain ⟨disk', hfree, hwf⟩ := ifree_spec hs hi ht
    rw [hfree]
    refine ⟨disk', false, ref - 1, rfl, ?_⟩
    have := hwf.coherent inum hi
    dsimp only at this
    rw [Function.update_self] at this
    rw [if_neg (by simp), this]
    exact hwf
  . refine ⟨s.disk, valid, ref - 1, rfl, ?_⟩
    rw [hs.coherent inum hi, ite_self, Function.update_eq_self]
    exact hs

theorem blockCall_wf {e : BlockEvent} (hs : WellFormed sb s) (hvalid : e.Valid sb s)
    (h : blockCall sb devsw s e = .ok (s', o))
    : WellFormed sb s' := by
  cases e with
  | writei inum src off n =>
    obtain ⟨r, hr, h⟩ := bind_eq_ok h
    cases h
    exact writei_wf hs hvalid.1 hvalid.2 off.isLt n.isLt hr
  | readi inum off n =>
    obtain ⟨r, hr, hdisk, hip⟩ := readi_ok devsw hs hvalid.1 hvalid.2 off.isLt n.isLt
    simp only [blockCall, hr] at h
    cases h
    rw [hdisk, hip, Function.update_eq_self]
    exact hs
  | itrunc inum =>
    obtain ⟨disk1, htrunc, hwf⟩ := itrunc_spec hs hvalid.1 hvalid.2
    simp only [blockCall, htrunc] at h
    cases h
    exact hwf
  | ialloc type =>
    obtain ⟨⟨disk1, inum⟩, halloc, h⟩ := bind_eq_ok h
    cases h
    obtain ⟨-, hi, -, hwf⟩ := ialloc_spec hs type.isLt halloc
    have := hwf.coherent inum hi
    dsimp only at this
    rw [Function.update_self] at this
    rw [this]
    exact hwf
  | iput inum valid ref =>
    obtain ⟨disk1, valid', ref', hput, hwf⟩ := iput_spec valid ref hs hvalid.1 hvalid.2
    simp only [blockCall, hput] at h
    cases h
    exact hwf
  | dirlink dinum name inum =>
    obtain ⟨⟨disk1, dp1, ret⟩, hlink, h⟩ := bind_eq_ok h
    cases h
    exact dirlink_wf hs hvalid.1 hvalid.2 hlink

theorem blockCall_panic (e : BlockEvent) (hs : WellFormed sb s) (hvalid : e.Valid sb s)
    : blockCall sb devsw s e ≠ .error "freeing free block" := by
  cases e with
  | writei inum src off n =>
    apply bind_ne_error
    . intro h
      exact absurd (writei_panic off.isLt n.isLt h) (by decide)
    . intro r _ h
      cases h
  | readi inum off n =>
    obtain ⟨r, hr, -⟩ := readi_ok devsw hs hvalid.1 hvalid.2 off.isLt n.isLt
    simp only [blockCall, hr]
    intro h
    cases h
  | itrunc inum =>
    obtain ⟨disk1, htrunc, -⟩ := itrunc_spec hs hvalid.1 hvalid.2
    simp only [blockCall, htrunc]
    intro h
    cases h
  | ialloc type =>
    apply bind_ne_error
    . unfold ialloc
      split
      . intro h
        cases h
      . intro h
        exact absurd (Except.error.inj h) (by decide)
    . intro x _ h
      cases h
  | iput inum valid ref =>
    obtain ⟨disk1, valid', ref', hput, -⟩ := iput_spec valid ref hs hvalid.1 hvalid.2
    simp only [blockCall, hput]
    intro h
    cases h
  | dirlink dinum name inum =>
    apply bind_ne_error
    . exact dirlink_panic name inum hs hvalid.1 hvalid.2
    . intro x _ h
      cases h

theorem blockStep_wf {e : BlockEvent} (hs : WellFormed sb s) (hstep : blockStep sb devsw s e = some (s', o))
    : WellFormed sb s' := by
  unfold blockStep at hstep
  split at hstep
  . next hvalid =>
    cases hcall : blockCall sb devsw s e with
    | error msg =>
      rw [hcall] at hstep
      cases hstep
    | ok r =>
      rw [hcall] at hstep
      cases hstep
      exact blockCall_wf hs hvalid hcall
  . cases hstep

/--
In every run from a well-formed state each block below the size of an inode is mapped, a block of the data area is
marked if and only if it is in one place of one inode, and no call frees a free block.
-/
theorem blocks_in_one_place (sb : Superblock) (devsw : Devsw) (s : State) (hs : WellFormed sb s) (es : List BlockEvent)
    : Machine.Always (blockStep sb devsw) (fun t => WellFormed sb t ∧ Once sb t ∧
        ∀ e : BlockEvent, e.Valid sb t → blockCall sb devsw t e ≠ .error "freeing free block") s es := by
  apply Machine.always_of_invariant (I := WellFormed sb) _ _ hs
  . intro t e o t' ht hstep
    exact blockStep_wf ht hstep
  . intro t ht
    exact ⟨ht, ht.once, fun e hvalid => blockCall_panic e ht hvalid⟩

theorem blocks_in_one_place_fresh
    : Machine.Always (blockStep mkfsLayout ⟨fun _ => none, fun _ => none⟩) (fun t => WellFormed mkfsLayout t ∧
        Once mkfsLayout t ∧ ∀ e : BlockEvent, e.Valid mkfsLayout t →
          blockCall mkfsLayout ⟨fun _ => none, fun _ => none⟩ t e ≠ .error "freeing free block") fresh
        [.writei 2 (fun k => UInt8.ofNat k) 0 600, .dirlink 1 [0x61] 2, .itrunc 2, .ialloc 2, .iput 2 true 1] :=
  blocks_in_one_place mkfsLayout ⟨fun _ => none, fun _ => none⟩ fresh fresh_wf _

end Xv6.Fs
