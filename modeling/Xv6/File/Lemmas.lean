import Mathlib.Data.Fintype.Prod
import Xv6.File.Impl

/-!
The references to open files and the ends of pipes. `Inv n s held` is the state of a kernel with `n` pages in the
middle of a system call that holds the references `held`, on top of those in the descriptor tables.
-/

namespace Xv6.File

-- The end of a pipe that a file is.
def endOf (f : File) : Option (Nat × Bool) :=
  if f.type = .pipe then some (f.pipe, f.writable) else none

def isOpen (p : Pipe) (writable : Bool) : Bool :=
  if writable then p.writeopen else p.readopen

def shut (p : Pipe) (writable : Bool) : Pipe :=
  if writable then { p with writeopen := false } else { p with readopen := false }

theorem isOpen_shut (p : Pipe) (w w' : Bool)
    : isOpen (shut p w) w' = if w' = w then false else isOpen p w' := by
  cases w <;> cases w' <;> rfl

theorem endOf_eq_none {f : File} (h : f.type ≠ .pipe) : endOf f = none := by
  simp [endOf, h]

theorem endOf_eq_some {f : File} {a : Nat} {w : Bool}
    : endOf f = some (a, w) ↔ f.type = .pipe ∧ f.pipe = a ∧ f.writable = w := by
  unfold endOf
  split
  . next h => simp [h]
  . next h => simp [h]

/-- The pipes, and which file is which end of them. -/
structure Ends (ends : Fin NFILE → Option (Nat × Bool)) (pipes : List Nat) (data : Nat → Pipe) : Prop where
  inj : ∀ f g x, ends f = some x → ends g = some x → f = g
  live : ∀ a, a ∈ pipes ↔ ∃ f w, ends f = some (a, w)
  isOpen : ∀ a ∈ pipes, ∀ w, isOpen (data a) w = true ↔ ∃ f, ends f = some (a, w)

namespace Ends

variable {ends : Fin NFILE → Option (Nat × Bool)} {pipes : List Nat} {data data' : Nat → Pipe}
  {f f0 f1 : Fin NFILE} {a : Nat} {w : Bool}

theorem congr (h : Ends ends pipes data) (hdata : ∀ a ∈ pipes, data' a = data a) : Ends ends pipes data' where
  inj := h.inj
  live := h.live
  isOpen a ha := by
    rw [hdata a ha]
    exact h.isOpen a ha

theorem update_eq_some {x : Nat × Bool} {g : Fin NFILE}
    : Function.update ends f none g = some x ↔ g ≠ f ∧ ends g = some x := by
  by_cases hg : g = f
  . simp [hg]
  . simp [hg]

theorem ne_of_ends {x y : Nat × Bool} {g : Fin NFILE} (hf : ends f = some x) (hg : ends g = some y) (hne : y ≠ x)
    : g ≠ f := by
  rintro rfl
  rw [hf] at hg
  exact hne (Option.some.inj hg).symm

-- The end `w` of the pipe `a` is closed, the other one stays open.
theorem close (h : Ends ends pipes data) (hf : ends f = some (a, w)) (hopen : Xv6.File.isOpen (data a) (!w) = true)
    (ha : data' a = shut (data a) w) (hdata : ∀ b ∈ pipes, b ≠ a → data' b = data b)
    : Ends (Function.update ends f none) pipes data' where
  inj g g' x hg hg' := h.inj g g' x (update_eq_some.mp hg).2 (update_eq_some.mp hg').2
  live b := by
    have hmem : a ∈ pipes := (h.live a).mpr ⟨f, w, hf⟩
    rw [h.live b]
    constructor
    . rintro ⟨g, w', hg⟩
      by_cases hgf : g = f
      . -- `b` is `a`, which lives on with the other end
        have : (b, w') = (a, w) := by
          rw [hgf, hf] at hg
          exact (Option.some.inj hg).symm
        obtain ⟨rfl, rfl⟩ := Prod.mk.inj this
        obtain ⟨g', hg'⟩ := (h.isOpen b hmem (!w')).mp hopen
        exact ⟨g', !w', update_eq_some.mpr ⟨ne_of_ends hf hg' (by simp), hg'⟩⟩
      . exact ⟨g, w', update_eq_some.mpr ⟨hgf, hg⟩⟩
    . rintro ⟨g, w', hg⟩
      exact ⟨g, w', (update_eq_some.mp hg).2⟩
  isOpen b hb w' := by
    simp only [update_eq_some]
    by_cases hba : b = a
    . subst hba
      rw [ha, isOpen_shut]
      split
      . next hw =>
        subst hw
        constructor
        . simp
        . rintro ⟨g, hne, hg⟩
          exact absurd (h.inj g f _ hg hf) hne
      . next hw =>
        rw [h.isOpen b hb w']
        constructor
        . rintro ⟨g, hg⟩
          exact ⟨g, ne_of_ends hf hg (by simpa using hw), hg⟩
        . rintro ⟨g, -, hg⟩
          exact ⟨g, hg⟩
    . rw [hdata b hb hba, h.isOpen b hb w']
      constructor
      . rintro ⟨g, hg⟩
        exact ⟨g, ne_of_ends hf hg (by simp [hba]), hg⟩
      . rintro ⟨g, -, hg⟩
        exact ⟨g, hg⟩

theorem closeLast (h : Ends ends pipes data) (hf : ends f = some (a, w))
    (hopen : Xv6.File.isOpen (data a) (!w) = false) (hnodup : pipes.Nodup)
    (hdata : ∀ b ∈ pipes, b ≠ a → data' b = data b)
    : Ends (Function.update ends f none) (pipes.erase a) data' where
  inj g g' x hg hg' := h.inj g g' x (update_eq_some.mp hg).2 (update_eq_some.mp hg').2
  live b := by
    have hmem : a ∈ pipes := (h.live a).mpr ⟨f, w, hf⟩
    rw [hnodup.mem_erase_iff, h.live b]
    simp only [update_eq_some]
    constructor
    . rintro ⟨hba, g, w', hg⟩
      exact ⟨g, w', ne_of_ends hf hg (by simp [hba]), hg⟩
    . rintro ⟨g, w', hne, hg⟩
      refine ⟨?_, g, w', hg⟩
      rintro rfl
      -- neither `w` nor the other end is left
      have hw' : w' = !w := by
        by_contra hw
        have : w' = w := by
          cases w <;> cases w' <;> simp_all
        rw [this] at hg
        exact hne (h.inj g f _ hg hf)
      rw [hw'] at hg
      have := (h.isOpen b hmem (!w)).mpr ⟨g, hg⟩
      rw [hopen] at this
      cases this
  isOpen b hb w' := by
    obtain ⟨hba, hb⟩ := hnodup.mem_erase_iff.mp hb
    simp only [update_eq_some]
    rw [hdata b hb hba, h.isOpen b hb w']
    constructor
    . rintro ⟨g, hg⟩
      exact ⟨g, ne_of_ends hf hg (by simp [hba]), hg⟩
    . rintro ⟨g, -, hg⟩
      exact ⟨g, hg⟩

theorem connect (h : Ends ends pipes data) (hne : f0 ≠ f1) (hf0 : ends f0 = none) (hf1 : ends f1 = none)
    (ha : a ∉ pipes) (hopen : ∀ w, Xv6.File.isOpen (data' a) w = true) (hdata : ∀ b ∈ pipes, data' b = data b)
    : Ends (Function.update (Function.update ends f0 (some (a, false))) f1 (some (a, true))) (a :: pipes) data' := by
  -- what the new files were before, nobody refers to `a`
  have hold : ∀ g w, ends g ≠ some (a, w) := fun g w hg => ha ((h.live a).mpr ⟨g, w, hg⟩)
  have hends : ∀ g x, Function.update (Function.update ends f0 (some (a, false))) f1 (some (a, true)) g = some x ↔
      g = f1 ∧ x = (a, true) ∨ g = f0 ∧ x = (a, false) ∨ ends g = some x := by
    intro g x
    by_cases hg1 : g = f1
    . subst hg1
      simp [hne.symm, hf1, eq_comm]
    . by_cases hg0 : g = f0
      . subst hg0
        simp [hg1, hf0, eq_comm]
      . simp [hg1, hg0]
  constructor
  . intro g g' x hg hg'
    rw [hends] at hg hg'
    rcases hg with ⟨rfl, rfl⟩ | ⟨rfl, rfl⟩ | hg <;> rcases hg' with ⟨rfl, hx⟩ | ⟨rfl, hx⟩ | hg'
    . rfl
    . simp at hx
    . exact absurd hg' (hold g' true)
    . simp at hx
    . rfl
    . exact absurd hg' (hold g' false)
    . exact absurd (hx ▸ hg) (hold g true)
    . exact absurd (hx ▸ hg) (hold g false)
    . exact h.inj g g' x hg hg'
  . intro b
    simp only [List.mem_cons, hends]
    rw [h.live b]
    constructor
    . rintro (rfl | ⟨g, w, hg⟩)
      . exact ⟨f1, true, .inl ⟨rfl, rfl⟩⟩
      . exact ⟨g, w, .inr (.inr hg)⟩
    . rintro ⟨g, w, ⟨-, hx⟩ | ⟨-, hx⟩ | hg⟩
      . exact .inl (Prod.mk.inj hx).1
      . exact .inl (Prod.mk.inj hx).1
      . exact .inr ⟨g, w, hg⟩
  . intro b hb w
    simp only [hends]
    by_cases hba : b = a
    . subst hba
      rw [iff_true_left (hopen w)]
      cases w
      . exact ⟨f0, .inr (.inl ⟨rfl, rfl⟩)⟩
      . exact ⟨f1, .inl ⟨rfl, rfl⟩⟩
    . have hb : b ∈ pipes := (List.mem_cons.mp hb).resolve_left hba
      rw [hdata b hb, h.isOpen b hb w]
      constructor
      . rintro ⟨g, hg⟩
        exact ⟨g, .inr (.inr hg)⟩
      . rintro ⟨g, ⟨-, hx⟩ | ⟨-, hx⟩ | hg⟩
        . exact absurd (Prod.mk.inj hx).1 hba
        . exact absurd (Prod.mk.inj hx).1 hba
        . exact ⟨g, hg⟩

end Ends

namespace State

open Pool

def ends (s : State) (f : Fin NFILE) : Option (Nat × Bool) :=
  endOf (s.file f)

theorem pipeclose_eq (s : State) (a : Nat) (w : Bool)
    : s.pipeclose a w =
      if isOpen (s.kmem.data a) (!w) = true then { s with kmem := s.kmem.put a (shut (s.kmem.data a) w) }
      else
        { s with
            kmem := ((s.kmem.put a (shut (s.kmem.data a) w)).put a junk).give a
            pipes := s.pipes.erase a } := by
  unfold pipeclose
  cases w
  . cases h : (s.kmem.data a).writeopen <;> simp [isOpen, shut, h]
  . cases h : (s.kmem.data a).readopen <;> simp [isOpen, shut, h]

-- The references in the descriptor tables.
def refs (s : State) : Multiset (Fin NFILE) :=
  cells s.ofile Finset.univ

theorem mem_refs {s : State} {x : Slot × Fin NOFILE} {f : Fin NFILE} (hx : s.ofile x = some f) : f ∈ s.refs := by
  rw [refs, mem_cells]
  refine ⟨x, ?_, hx⟩
  simp only [Finset.mem_univ]

structure Inv (n : Nat) (s : State) (held : Multiset (Fin NFILE)) : Prop where
  ref : ∀ f, (s.file f).ref = (s.refs + held).count f
  gone : ∀ p fd, s.state p = .unused ∨ s.state p = .zombie → s.ofile (p, fd) = none
  none : ∀ f, (s.file f).ref = 0 → (s.file f).type = .none
  side : ∀ f, (s.file f).type = .pipe → (s.file f).readable = !(s.file f).writable
  ends : Ends s.ends s.pipes s.kmem.data
  pages : (s.pipes + s.other + s.kmem.free : Multiset Nat) = Multiset.range n

variable {n : Nat} {s s' : State} {held held' : Multiset (Fin NFILE)} {f g : Fin NFILE} {p : Slot} {fd : Fin NOFILE}

theorem setFile_file (s : State) (f g : Fin NFILE) (x : File)
    : (s.setFile f x).file g = if g = f then x else s.file g := by
  simp [setFile, Function.update_apply]

theorem setFile_ends (s : State) (f : Fin NFILE) (x : File)
    : (s.setFile f x).ends = Function.update s.ends f (endOf x) := by
  funext g
  simp only [ends, setFile_file, Function.update_apply]
  split <;> rfl

theorem setFile_ends_self {x : File} (h : endOf x = endOf (s.file f)) : (s.setFile f x).ends = s.ends := by
  rw [setFile_ends, h]
  exact Function.update_eq_self f s.ends

namespace Inv

theorem ref_pos (h : Inv n s held) (hf : f ∈ s.refs + held) : 0 < (s.file f).ref := by
  rw [h.ref f]
  exact Multiset.count_pos.mpr hf

theorem ref_pos_of_held (h : Inv n s held) (hf : f ∈ held) : 0 < (s.file f).ref :=
  h.ref_pos (Multiset.mem_add.mpr (.inr hf))

theorem ref_pos_of_ofile (h : Inv n s held) {x : Slot × Fin NOFILE} (hx : s.ofile x = some f)
    : 0 < (s.file f).ref :=
  h.ref_pos (Multiset.mem_add.mpr (.inl (mem_refs hx)))

theorem nodup (h : Inv n s held) : (s.pipes + s.other + s.kmem.free : Multiset Nat).Nodup := by
  rw [h.pages]
  exact Multiset.nodup_range n

theorem pipes_nodup (h : Inv n s held) : s.pipes.Nodup :=
  Multiset.coe_nodup.mp (Multiset.nodup_of_le (by rw [add_assoc]; exact Multiset.le_add_right _ _) h.nodup)

theorem notMem_pipes (h : Inv n s held) {a : Nat} (ha : a ∈ s.other ∨ a ∈ s.kmem.free) : a ∉ s.pipes := by
  intro hpipe
  have := h.nodup
  rw [add_assoc] at this
  apply Multiset.disjoint_left.mp (Multiset.nodup_add.mp this).2.2 hpipe
  rw [Multiset.mem_add]
  exact ha

-- A write to the file `f` that leaves it the same end of a pipe.
theorem setFile (h : Inv n s held) {x : File} (href : x.ref = (s.refs + held').count f)
    (hheld : ∀ g, g ≠ f → held'.count g = held.count g) (hnone : x.ref = 0 → x.type = .none)
    (hside : x.type = .pipe → x.readable = !x.writable) (hend : endOf x = endOf (s.file f))
    : Inv n (s.setFile f x) held' where
  ref g := by
    rw [setFile_file]
    split
    . next hg =>
      rw [hg]
      exact href
    . next hg =>
      have := h.ref g
      rw [Multiset.count_add] at this ⊢
      rw [hheld g hg]
      exact this
  gone := h.gone
  none g := by
    rw [setFile_file]
    split
    . exact hnone
    . exact h.none g
  side g := by
    rw [setFile_file]
    split
    . exact hside
    . exact h.side g
  ends := by
    rw [setFile_ends_self hend]
    exact h.ends
  pages := h.pages

theorem filealloc (h : Inv n s held) (hs : s.filealloc = some (s', f))
    : Inv n s' (f ::ₘ held) ∧ (s'.file f).type = .none ∧ (∀ g ∈ held, g ≠ f ∧ s'.file g = s.file g) ∧
      s'.state = s.state := by
  unfold State.filealloc at hs
  split at hs
  . next f' hfind =>
    simp only [Option.some.injEq, Prod.mk.injEq] at hs
    obtain ⟨rfl, rfl⟩ := hs
    have hzero : (s.file f').ref = 0 := by simpa using List.find?_some hfind
    have hcount := h.ref f'
    rw [hzero] at hcount
    refine ⟨?_, ?_, ?_, rfl⟩
    . apply h.setFile
      . rw [Multiset.add_cons, Multiset.count_cons_self, ← hcount]
      . intro g hg
        rw [Multiset.count_cons_of_ne hg]
      . simp
      . exact h.side f'
      . rfl
    . rw [setFile_file, if_pos rfl]
      exact h.none f' hzero
    . intro g hg
      have hne : g ≠ f' := by
        rintro rfl
        have := h.ref_pos_of_held hg
        omega
      exact ⟨hne, by rw [setFile_file, if_neg hne]⟩
  . simp at hs

theorem filedup (h : Inv n s held) (hf : 0 < (s.file f).ref)
    : ∃ s', s.filedup f = .ok s' ∧ Inv n s' (f ::ₘ held) ∧ s'.ofile = s.ofile ∧ s'.state = s.state := by
  unfold State.filedup
  rw [if_neg (by omega)]
  refine ⟨_, rfl, ?_, rfl, rfl⟩
  apply h.setFile
  . rw [Multiset.add_cons, Multiset.count_cons_self, ← h.ref f]
  . intro g hg
    rw [Multiset.count_cons_of_ne hg]
  . simp
  . exact h.side f
  . rfl

theorem pipeclose (h : Inv n s (f ::ₘ held)) {a : Nat} {w : Bool} (hf : s.ends f = some (a, w))
    (hlast : (s.file f).ref = 1)
    : Inv n ((s.setFile f { s.file f with ref := 0, type := .none }).pipeclose a w) held := by
  have hcount := h.ref f
  rw [hlast, Multiset.add_cons, Multiset.count_cons_self] at hcount
  have hmem : a ∈ s.pipes := (h.ends.live a).mpr ⟨f, w, hf⟩
  have href : ∀ g, ((s.setFile f { s.file f with ref := 0, type := .none }).file g).ref =
      (s.refs + held).count g := by
    intro g
    rw [setFile_file]
    split
    . next hg =>
      rw [hg]
      dsimp only
      omega
    . next hg => rw [h.ref g, Multiset.add_cons, Multiset.count_cons_of_ne hg]
  have hnone : ∀ g, ((s.setFile f { s.file f with ref := 0, type := .none }).file g).ref = 0 →
      ((s.setFile f { s.file f with ref := 0, type := .none }).file g).type = .none := by
    intro g
    rw [setFile_file]
    split
    . simp
    . exact h.none g
  have hside : ∀ g, ((s.setFile f { s.file f with ref := 0, type := .none }).file g).type = .pipe →
      ((s.setFile f { s.file f with ref := 0, type := .none }).file g).readable =
        !((s.setFile f { s.file f with ref := 0, type := .none }).file g).writable := by
    intro g
    rw [setFile_file]
    split
    . simp
    . exact h.side g
  have hends := setFile_ends s f { s.file f with ref := 0, type := .none }
  rw [pipeclose_eq]
  split
  . next hopen =>
    refine ⟨href, h.gone, hnone, hside, ?_, h.pages⟩
    have hput : ∀ b ∈ s.pipes, b ≠ a → (s.kmem.put a (shut (s.kmem.data a) w)).data b = s.kmem.data b := by
      simp +contextual [put]
    have := h.ends.close hf hopen (if_pos rfl) hput
    rw [← endOf_eq_none (f := { s.file f with ref := 0, type := .none }) (by simp), ← hends] at this
    exact this
  . next hopen =>
    refine ⟨href, h.gone, hnone, hside, ?_, ?_⟩
    . have hput : ∀ b ∈ s.pipes, b ≠ a →
          (((s.kmem.put a (shut (s.kmem.data a) w)).put a junk).give a).data b = s.kmem.data b := by
        simp +contextual [put, give]
      have := h.ends.closeLast hf (Bool.eq_false_iff.mpr hopen) h.pipes_nodup hput
      rw [← endOf_eq_none (f := { s.file f with ref := 0, type := .none }) (by simp), ← hends] at this
      exact this
    . rw [← h.pages]
      dsimp only [State.setFile, give, put]
      rw [← Multiset.cons_coe, ← Multiset.singleton_add, ← Multiset.coe_erase, add_left_comm, ← add_assoc,
        ← add_assoc, Multiset.singleton_add, Multiset.cons_erase (Multiset.mem_coe.mpr hmem)]

theorem fileclose (h : Inv n s (f ::ₘ held))
    : ∃ s', s.fileclose f = .ok s' ∧ Inv n s' held ∧ s'.ofile = s.ofile ∧ s'.state = s.state := by
  have hpos := h.ref_pos_of_held (Multiset.mem_cons_self f held)
  have hcount := h.ref f
  rw [Multiset.add_cons, Multiset.count_cons_self] at hcount
  unfold State.fileclose
  rw [if_neg (by omega)]
  split
  . next hmore =>
    refine ⟨_, rfl, ?_, rfl, rfl⟩
    apply h.setFile
    . dsimp only
      omega
    . intro g hg
      rw [Multiset.count_cons_of_ne hg]
    . dsimp only
      omega
    . exact h.side f
    . rfl
  . next hlast =>
    dsimp only
    split
    . next hpipe =>
      refine ⟨_, rfl, h.pipeclose (endOf_eq_some.mpr ⟨hpipe, rfl, rfl⟩) (by omega), ?_, ?_⟩
      . rw [pipeclose_eq]
        split <;> rfl
      . rw [pipeclose_eq]
        split <;> rfl
    . next hpipe =>
      refine ⟨_, rfl, ?_, rfl, rfl⟩
      apply h.setFile
      . dsimp only
        omega
      . intro g hg
        rw [Multiset.count_cons_of_ne hg]
      . simp
      . simp
      . rw [endOf_eq_none hpipe]
        rfl

theorem connect (h : Inv n s held) {f0 f1 : Fin NFILE} (hne : f0 ≠ f1) (hf0 : f0 ∈ held) (hf1 : f1 ∈ held)
    (ht0 : (s.file f0).type = .none) (ht1 : (s.file f1).type = .none) {a : Nat} {kmem : Pool Nat Pipe}
    (hk : s.kmem.take = some (a, kmem))
    : Inv n (s.connect f0 f1 a kmem) held := by
  obtain ⟨hfree, hdata⟩ := take_eq_some hk
  have hfile : ∀ g, (s.connect f0 f1 a kmem).file g =
      if g = f1 then { s.file f1 with type := .pipe, readable := false, writable := true, pipe := a }
      else if g = f0 then { s.file f0 with type := .pipe, readable := true, writable := false, pipe := a }
      else s.file g := by
    intro g
    simp only [State.connect, setFile_file, if_neg (Ne.symm hne)]
  constructor
  . intro g
    rw [hfile]
    split
    . next hg =>
      rw [hg]
      exact h.ref f1
    . split
      . next hg =>
        rw [hg]
        exact h.ref f0
      . exact h.ref g
  . exact h.gone
  . intro g
    rw [hfile]
    have := h.ref_pos_of_held hf0
    have := h.ref_pos_of_held hf1
    split
    . dsimp only
      omega
    . split
      . dsimp only
        omega
      . exact h.none g
  . intro g
    rw [hfile]
    split
    . simp
    . split
      . simp
      . exact h.side g
  . have hends : (s.connect f0 f1 a kmem).ends =
        Function.update (Function.update s.ends f0 (some (a, false))) f1 (some (a, true)) := by
      funext g
      simp only [State.ends, hfile, Function.update_apply]
      split
      . rfl
      . split <;> rfl
    have ha : a ∉ s.pipes := h.notMem_pipes (.inr (by simp [hfree]))
    rw [hends]
    apply h.ends.connect hne
    . exact endOf_eq_none (by simp [ht0])
    . exact endOf_eq_none (by simp [ht1])
    . exact ha
    . intro w
      cases w <;> simp [State.connect, State.setFile, put, isOpen]
    . intro b hb
      have hba : b ≠ a := fun heq => ha (heq ▸ hb)
      simp [State.connect, State.setFile, put, hba, hdata]
  . rw [← h.pages]
    simp only [State.connect, State.setFile, put, hfree]
    rw [← Multiset.cons_coe, ← Multiset.cons_coe, Multiset.add_cons, Multiset.cons_add, Multiset.cons_add]

theorem setOfile (h : Inv n s held) {x : Option (Fin NFILE)}
    (href : (s.setOfile p fd x).refs + held' = s.refs + held)
    (hp : x ≠ .none → s.state p ≠ .unused ∧ s.state p ≠ .zombie)
    : Inv n (s.setOfile p fd x) held' where
  ref g := by
    rw [href]
    exact h.ref g
  gone q i hq := by
    by_cases hqi : (q, i) = (p, fd)
    . obtain ⟨rfl, rfl⟩ := Prod.mk.inj hqi
      cases x with
      | none => simp [State.setOfile]
      | some f =>
        have := hp (by simp)
        rcases hq with hq | hq
        . exact absurd hq this.1
        . exact absurd hq this.2
    . dsimp only [State.setOfile]
      rw [Function.update_of_ne hqi]
      exact h.gone q i hq
  none := h.none
  side := h.side
  ends := h.ends
  pages := h.pages

theorem clearOfile (h : Inv n s held) (hf : s.ofile (p, fd) = some f) : Inv n (s.setOfile p fd .none) (f ::ₘ held) := by
  apply h.setOfile
  . rw [← Multiset.singleton_add, ← add_assoc, refs, State.setOfile, cells_remove (Finset.mem_univ _) hf, refs]
  . simp

theorem fillOfile (h : Inv n s (f ::ₘ held)) (hf : s.ofile (p, fd) = .none) (hp : live (s.state p) = true ∨ s.state p = .embryo)
    : Inv n (s.setOfile p fd (some f)) held := by
  apply h.setOfile
  . rw [refs, State.setOfile, cells_add (Finset.mem_univ _) hf, add_assoc, Multiset.singleton_add, refs]
  . rintro -
    rcases hp with hp | hp
    . cases hst : s.state p <;> simp [live, hst] at hp ⊢
    . simp [hp]

end Inv

theorem fdalloc_eq_some {s s' : State} (hs : s.fdalloc p f = some (s', fd))
    : s.ofile (p, fd) = none ∧ s' = s.setOfile p fd (some f) := by
  unfold fdalloc at hs
  split at hs
  . next fd' hfind =>
    simp only [Option.some.injEq, Prod.mk.injEq] at hs
    obtain ⟨rfl, rfl⟩ := hs
    exact ⟨by simpa using List.find?_some hfind, rfl⟩
  . simp at hs

end State

end Xv6.File
