import Xv6.Icache.Impl

/-!
What a call has reached with the inode that it works with, and that each of its steps gets on to the next point.
-/

namespace Xv6.Icache

open Fs

def MappedTo (ip : Dinode) (n : Nat) : Prop :=
  ∀ bn, bn * BSIZE < n → ip.addrs (min bn NDIRECT) ≠ 0

-- All blocks below the size are there.
def Mapped (ip : Dinode) : Prop :=
  MappedTo ip ip.size

variable {ι : Type} {e e' : Inode ι} {d d' ip ip' : Dinode} {x x' : Phase} {p : ι} {b bn off n : Nat}

def Coherent (e : Inode ι) (d : Dinode) : Prop :=
  e.valid = true → e.ip = d ∧ d.type ≠ 0

-- The entry `e`, whose inode is `d` on the disk, while it is locked.
def Good (e : Inode ι) (d : Dinode) : Phase → Prop
  | .load => e.valid = false
  | .check => e.valid = false ∧ (e.ip.type ≠ 0 → e.ip = d)
  | .use | .itrunc => e.valid = true ∧ e.ip = d ∧ d.type ≠ 0
  | .readi off n => e.valid = true ∧ e.ip = d ∧ d.type ≠ 0 ∧ off + n ≤ d.size
  | .iupdate => e.valid = true ∧ d.type ≠ 0 ∧ e.ip.type ≠ 0 ∧ Mapped e.ip
  | .writei off n _ =>
    e.valid = true ∧ d.type ≠ 0 ∧ e.ip.type ≠ 0 ∧ e.ip.size = d.size ∧ (off ≤ d.size → e.ip = d) ∧
      MappedTo e.ip (max off d.size) ∧ (d.size < off → 0 < n)
  | .truncated | .freed => Mapped e.ip
  | .invalidate => True
  | .test | .release => Coherent e d
  | .acquire | .iput | .drop => True

-- Only `ialloc` changes an inode on the disk without its lock, and this one has no type.
theorem Coherent.recycle (h : Coherent e d) (hd : d.type = 0) (d' : Dinode) : Coherent e d' := by
  intro hvalid
  exact absurd hd (h hvalid).2

theorem Good.recycle (h : Good e d x) (hd : d.type = 0) (d' : Dinode) : Good e d' x := by
  cases x with
  | load => exact h
  | check => exact ⟨h.1, fun htype => absurd (h.2 htype ▸ hd) htype⟩
  | use => exact absurd hd h.2.2
  | readi off n => exact absurd hd h.2.2.1
  | itrunc => exact absurd hd h.2.2
  | iupdate => exact absurd hd h.2.1
  | writei off n tot => exact absurd hd h.2.1
  | truncated => exact h
  | freed => exact h
  | invalidate => trivial
  | test => exact Coherent.recycle h hd d'
  | release => exact Coherent.recycle h hd d'
  | acquire => trivial
  | iput => trivial
  | drop => trivial

theorem Good.ref (r : Nat) : Good { e with ref := r } d x ↔ Good e d x := by
  cases x <;> exact Iff.rfl

theorem bmap_mapped (h : bmap ip bn b = some ip') (hbn : ip.addrs (min bn NDIRECT) ≠ 0) : ip' = ip := by
  unfold bmap at h
  rw [if_pos hbn] at h
  split at h
  . cases h
  . exact (Option.some.inj h).symm

-- What `bmap` changes is an address that was not there, and the block is there now.
theorem bmap_spec (h : bmap ip bn b = some ip')
    : ip'.type = ip.type ∧ ip'.size = ip.size ∧ ip'.addrs (min bn NDIRECT) ≠ 0 ∧
      ∀ k, ip.addrs k ≠ 0 → ip'.addrs k ≠ 0 := by
  unfold bmap at h
  split at h
  . cases h
  split at h
  . next hbn =>
    cases h
    exact ⟨rfl, rfl, hbn, fun _ hk => hk⟩
  split at h
  . cases h
  . next hb =>
    cases h
    refine ⟨rfl, rfl, ?_, fun k hk => ?_⟩
    . dsimp only [setAddr]
      rwa [Function.update_self]
    . dsimp only [setAddr]
      by_cases heq : k = min bn NDIRECT
      . rwa [heq, Function.update_self]
      . rwa [Function.update_of_ne heq]

theorem chunk_pos (off : Nat) (hn : 0 < n) : 0 < chunk off n := by
  have := Nat.mod_lt off (show 0 < BSIZE by decide)
  unfold chunk
  omega

-- A chunk does not leave its block.
theorem chunk_le (off n : Nat) : off + chunk off n ≤ (off / BSIZE + 1) * BSIZE := by
  have := Nat.mod_lt off (show 0 < BSIZE by decide)
  have := Nat.div_add_mod off BSIZE
  have := Nat.min_le_right n (BSIZE - off % BSIZE)
  unfold chunk
  rw [Nat.add_mul, Nat.one_mul, Nat.mul_comm]
  omega

theorem block_lt (h : off < n) : off / BSIZE * BSIZE < n :=
  Nat.lt_of_le_of_lt (Nat.div_mul_le_self off BSIZE) h

-- What a step leaves behind.
structure Moved (p : ι) (e : Inode ι) (x : Phase) (e' : Inode ι) (d' : Dinode) (x' : Phase) : Prop where
  dev : e'.dev = e.dev
  inum : e'.inum = e.inum
  ref : e'.ref = e.ref
  inIput : x'.inIput = x.inIput
  mapped : Mapped d'
  held : x'.held = true → e'.lock = some p ∧ Good e' d' x'
  free : x'.held = false → e'.lock = none ∧ Coherent e' d'

theorem Moved.locked (hdev : e'.dev = e.dev) (hinum : e'.inum = e.inum) (href : e'.ref = e.ref)
    (hin : x'.inIput = x.inIput) (hd : Mapped d') (hx : x'.held = true) (h : e'.lock = some p ∧ Good e' d' x')
    : Moved p e x e' d' x' where
  dev := hdev
  inum := hinum
  ref := href
  inIput := hin
  mapped := hd
  held _ := h
  free hfree := by
    rw [hx] at hfree
    cases hfree

-- A round of the loop of `writei`.
theorem writei_round {tot : Nat} (hgood : Good e d (.writei off n tot)) (htot : tot < n)
    (hbmap : bmap e.ip (off / BSIZE) b = some ip)
    : Good { e with ip := ip } d (.writei (off + chunk off (n - tot)) n (tot + chunk off (n - tot))) := by
  obtain ⟨hvalid, hd, htype, hsize, hsame, hmapped, -⟩ := hgood
  obtain ⟨htype', hsize', hthere, hkeep⟩ := bmap_spec hbmap
  have hpos := chunk_pos off (show 0 < n - tot by omega)
  refine ⟨hvalid, hd, htype' ▸ htype, hsize'.trans hsize, fun hle => ?_, fun bn hbn => ?_, fun _ => by omega⟩
  . have hblock : e.ip.addrs (min (off / BSIZE) NDIRECT) ≠ 0 := hmapped _ (block_lt (by omega))
    exact (bmap_mapped hbmap hblock).trans (hsame (by omega))
  . by_cases hold : bn * BSIZE < max off d.size
    . exact hkeep _ (hmapped bn hold)
    . have hle := chunk_le off (n - tot)
      have hlt : bn < off / BSIZE + 1 := Nat.lt_of_mul_lt_mul_right (show bn * BSIZE < (off / BSIZE + 1) * BSIZE by omega)
      have hge : off / BSIZE ≤ bn := Nat.div_le_of_le_mul (by rw [Nat.mul_comm]; omega)
      rw [Nat.le_antisymm (Nat.le_of_lt_succ hlt) hge]
      exact hthere

theorem run_moved (hd : Mapped d) (hheld : x.held = true → e.lock = some p ∧ Good e d x)
    (hfree : e.lock = none → Coherent e d) (hrun : run p b e d x = some (e', d', x'))
    : Moved p e x e' d' x' := by
  cases x with
  | acquire =>
    dsimp only [run] at hrun
    split at hrun
    . cases hrun
    . next hlock =>
      have hcoherent := hfree (Option.not_isSome_iff_eq_none.mp hlock)
      split at hrun
      . next hvalid =>
        cases hrun
        exact .locked rfl rfl rfl rfl hd rfl ⟨rfl, hvalid⟩
      . next hvalid =>
        cases hrun
        have hvalid : e.valid = true := by simpa using hvalid
        exact .locked rfl rfl rfl rfl hd rfl ⟨rfl, hvalid, hcoherent hvalid⟩
  | load =>
    obtain ⟨hlock, hgood⟩ := hheld rfl
    cases hrun
    exact .locked rfl rfl rfl rfl hd rfl ⟨hlock, hgood, fun _ => rfl⟩
  | check =>
    obtain ⟨hlock, -, hgood⟩ := hheld rfl
    dsimp only [run] at hrun
    split at hrun
    . cases hrun
    . next htype =>
      cases hrun
      have heq := hgood htype
      exact .locked rfl rfl rfl rfl hd rfl ⟨hlock, rfl, heq, heq ▸ htype⟩
  | use => cases hrun
  | iupdate =>
    obtain ⟨hlock, hvalid, -, htype, hmapped⟩ := hheld rfl
    cases hrun
    exact .locked rfl rfl rfl rfl hmapped rfl ⟨hlock, hvalid, rfl, htype⟩
  | readi off n =>
    obtain ⟨hlock, hvalid, heq, htype, hsize⟩ := hheld rfl
    dsimp only [run] at hrun
    split at hrun
    . cases hrun
      exact .locked rfl rfl rfl rfl hd rfl ⟨hlock, hvalid, heq, htype⟩
    . next hn =>
      have hblock : e.ip.addrs (min (off / BSIZE) NDIRECT) ≠ 0 := heq ▸ hd _ (block_lt (by omega))
      have hle : chunk off n ≤ n := Nat.min_le_left _ _
      split at hrun
      . cases hrun
      . next hbmap =>
        cases hrun
        exact .locked rfl rfl rfl rfl hd rfl
          ⟨hlock, hvalid, (bmap_mapped hbmap hblock).trans heq, htype, by omega⟩
  | writei off n tot =>
    obtain ⟨hlock, hgood⟩ := hheld rfl
    dsimp only [run] at hrun
    split at hrun
    . next htot =>
      split at hrun
      . cases hrun
      . next hbmap =>
        cases hrun
        exact .locked rfl rfl rfl rfl hd rfl ⟨hlock, writei_round hgood htot hbmap⟩
    . obtain ⟨hvalid, hd', htype, hsize, hsame, hmapped, hpos⟩ := hgood
      split at hrun
      . next hend =>
        cases hrun
        have hmapped' : MappedTo e.ip off := fun bn hbn => hmapped bn (by omega)
        exact .locked rfl rfl rfl rfl hd rfl ⟨hlock, hvalid, hd', htype, hmapped'⟩
      . next hend =>
        cases hrun
        exact .locked rfl rfl rfl rfl hd rfl ⟨hlock, hvalid, hsame (by omega), hd'⟩
  | iput =>
    dsimp only [run] at hrun
    split at hrun
    . cases hrun
    . next hlock =>
      cases hrun
      exact .locked rfl rfl rfl rfl hd rfl ⟨rfl, hfree (Option.not_isSome_iff_eq_none.mp hlock)⟩
  | test =>
    obtain ⟨hlock, hgood⟩ := hheld rfl
    dsimp only [run] at hrun
    split at hrun
    . next hlast =>
      cases hrun
      exact .locked rfl rfl rfl rfl hd rfl ⟨hlock, hlast.1, hgood hlast.1⟩
    . cases hrun
      exact .locked rfl rfl rfl rfl hd rfl ⟨hlock, hgood⟩
  | itrunc =>
    obtain ⟨hlock, -⟩ := hheld rfl
    cases hrun
    exact .locked rfl rfl rfl rfl hd rfl ⟨hlock, fun bn hbn => absurd hbn (Nat.not_lt_zero _)⟩
  | truncated =>
    obtain ⟨hlock, hmapped⟩ := hheld rfl
    cases hrun
    exact .locked rfl rfl rfl rfl hmapped rfl ⟨hlock, hmapped⟩
  | freed =>
    obtain ⟨hlock, hmapped⟩ := hheld rfl
    cases hrun
    exact .locked rfl rfl rfl rfl hmapped rfl ⟨hlock, trivial⟩
  | invalidate =>
    obtain ⟨hlock, -⟩ := hheld rfl
    cases hrun
    exact .locked rfl rfl rfl rfl hd rfl ⟨hlock, fun hvalid => (by cases hvalid)⟩
  | release =>
    obtain ⟨hlock, hgood⟩ := hheld rfl
    cases hrun
    exact ⟨rfl, rfl, rfl, rfl, hd, fun hheld => (by cases hheld), fun _ => ⟨rfl, hgood⟩⟩
  | drop => cases hrun

end Xv6.Icache
