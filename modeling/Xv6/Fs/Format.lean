import Xv6.Lib.Bytes

/-!
`fs.h` and `stat.h`: the format of the disk. A block is a function from offsets to bytes, of which only the first
`BSIZE` matter. The fields of a `struct dinode` are kept as the numbers that they are in memory, so a negative `short`
is a number from `2^15` on, and `addrs` has `NDIRECT + 1` entries.
-/

namespace Xv6.Fs

open Bytes

abbrev BSIZE : Nat := 512

abbrev NDIRECT : Nat := 12

abbrev NINDIRECT : Nat := 128

abbrev MAXFILE : Nat := NDIRECT + NINDIRECT

-- `sizeof(struct dinode)`
abbrev DINODE : Nat := 64

abbrev IPB : Nat := BSIZE / DINODE

abbrev BPB : Nat := BSIZE * 8

abbrev DIRSIZ : Nat := 14

-- `sizeof(struct dirent)`
abbrev DIRENT : Nat := 16

def ROOTINO : Nat := 1

def T_DIR : Nat := 1

def T_FILE : Nat := 2

def T_DEV : Nat := 3

abbrev Block := Memory

abbrev Disk := Nat → Block

structure Dinode where
  type : Nat
  major : Nat
  minor : Nat
  nlink : Nat
  size : Nat
  addrs : Nat → Nat

def Dinode.zero : Dinode where
  type := 0
  major := 0
  minor := 0
  nlink := 0
  size := 0
  addrs := fun _ => 0

-- The struct as bytes.
def Dinode.bytes (d : Dinode) : Memory := fun j =>
  if j < 2 then byte d.type j
  else if j < 4 then byte d.major (j - 2)
  else if j < 6 then byte d.minor (j - 4)
  else if j < 8 then byte d.nlink (j - 6)
  else if j < 12 then byte d.size (j - 8)
  else byte (d.addrs ((j - 12) / 4)) ((j - 12) % 4)

-- `((struct dinode*)b)[i]`
def getDinode (b : Block) (i : Nat) : Dinode where
  type := get16 b (DINODE * i)
  major := get16 b (DINODE * i + 2)
  minor := get16 b (DINODE * i + 4)
  nlink := get16 b (DINODE * i + 6)
  size := get32 b (DINODE * i + 8)
  addrs := fun k => if k ≤ NDIRECT then get32 b (DINODE * i + 12 + 4 * k) else 0

def putDinode (b : Block) (i : Nat) (d : Dinode) : Block :=
  copy b (DINODE * i) DINODE d.bytes

-- The values that a `struct dinode` can hold.
structure Dinode.Fits (d : Dinode) : Prop where
  type : d.type < 2 ^ 16
  major : d.major < 2 ^ 16
  minor : d.minor < 2 ^ 16
  nlink : d.nlink < 2 ^ 16
  size : d.size < 2 ^ 32
  addrs : ∀ k, d.addrs k < 2 ^ 32
  rest : ∀ k, NDIRECT < k → d.addrs k = 0

variable {b b' : Block} {d : Dinode} {i j : Nat}

theorem getDinode_fits (b : Block) (i : Nat) : (getDinode b i).Fits where
  type := get16_lt _ _
  major := get16_lt _ _
  minor := get16_lt _ _
  nlink := get16_lt _ _
  size := get32_lt _ _
  addrs k := by
    dsimp only [getDinode]
    split
    . exact get32_lt _ _
    . omega
  rest k hk := if_neg (by omega)

theorem Dinode.ext' {d d' : Dinode} (htype : d.type = d'.type) (hmajor : d.major = d'.major)
    (hminor : d.minor = d'.minor) (hnlink : d.nlink = d'.nlink) (hsize : d.size = d'.size)
    (haddrs : ∀ k, d.addrs k = d'.addrs k)
    : d = d' := by
  obtain ⟨t, ma, mi, n, s, a⟩ := d
  obtain ⟨t', ma', mi', n', s', a'⟩ := d'
  dsimp only at *
  have : a = a' := funext haddrs
  simp [*]

theorem getDinode_congr (h : ∀ k < DINODE, b' (DINODE * i + k) = b (DINODE * i + k))
    : getDinode b' i = getDinode b i := by
  unfold DINODE at h
  have h16 : ∀ o, o + 2 ≤ 64 → get16 b' (64 * i + o) = get16 b (64 * i + o) := by
    intro o ho
    apply get16_congr
    intro k hk
    rw [add_assoc]
    exact h (o + k) (by omega)
  have h32 : ∀ o, o + 4 ≤ 64 → get32 b' (64 * i + o) = get32 b (64 * i + o) := by
    intro o ho
    apply get32_congr
    intro k hk
    rw [add_assoc]
    exact h (o + k) (by omega)
  apply Dinode.ext'
  . exact h16 0 (by omega)
  . exact h16 2 (by omega)
  . exact h16 4 (by omega)
  . exact h16 6 (by omega)
  . exact h32 8 (by omega)
  . intro k
    dsimp only [getDinode, DINODE, NDIRECT]
    split
    . rw [add_assoc]
      exact h32 (12 + 4 * k) (by omega)
    . rfl

theorem getDinode_putDinode (hd : d.Fits) : getDinode (putDinode b i d) i = d := by
  have hbyte : ∀ o < 64, putDinode b i d (64 * i + o) = d.bytes o := by
    intro o ho
    exact copy_of_mem ho
  apply Dinode.ext'
  . rw [← Nat.mod_eq_of_lt hd.type]
    apply get16_eq
    intro k hk
    rw [hbyte k (by omega)]
    simp [Dinode.bytes, hk]
  . rw [← Nat.mod_eq_of_lt hd.major]
    apply get16_eq
    intro k hk
    rw [add_assoc, hbyte (2 + k) (by omega), Dinode.bytes, if_neg (by omega), if_pos (by omega)]
    congr 1
    omega
  . rw [← Nat.mod_eq_of_lt hd.minor]
    apply get16_eq
    intro k hk
    rw [add_assoc, hbyte (4 + k) (by omega), Dinode.bytes, if_neg (by omega), if_neg (by omega), if_pos (by omega)]
    congr 1
    omega
  . rw [← Nat.mod_eq_of_lt hd.nlink]
    apply get16_eq
    intro k hk
    rw [add_assoc, hbyte (6 + k) (by omega), Dinode.bytes, if_neg (by omega), if_neg (by omega), if_neg (by omega),
      if_pos (by omega)]
    congr 1
    omega
  . rw [← Nat.mod_eq_of_lt hd.size]
    apply get32_eq
    intro k hk
    rw [add_assoc, hbyte (8 + k) (by omega), Dinode.bytes, if_neg (by omega), if_neg (by omega), if_neg (by omega),
      if_neg (by omega), if_pos (by omega)]
    congr 1
    omega
  . intro k
    dsimp only [getDinode, DINODE, NDIRECT]
    split
    . rw [← Nat.mod_eq_of_lt (hd.addrs k)]
      apply get32_eq
      intro l hl
      rw [add_assoc, add_assoc, hbyte (12 + (4 * k + l)) (by omega), Dinode.bytes, if_neg (by omega),
        if_neg (by omega), if_neg (by omega), if_neg (by omega), if_neg (by omega)]
      congr 1
      . congr 1
        omega
      . omega
    . next hk => exact (hd.rest k (Nat.lt_of_not_le hk)).symm

theorem getDinode_putDinode_of_ne (h : i ≠ j) : getDinode (putDinode b j d) i = getDinode b i := by
  apply getDinode_congr
  intro k hk
  apply copy_of_notMem
  unfold DINODE at *
  omega

theorem getDinode_zero (i : Nat) : getDinode (fun _ => 0) i = .zero := by
  apply Dinode.ext' <;> simp [getDinode, Dinode.zero, get16, get32]

end Xv6.Fs
