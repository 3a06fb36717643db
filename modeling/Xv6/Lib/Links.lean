import Mathlib.Data.List.Nodup
import Mathlib.Logic.Function.Basic

/-!
Circular doubly linked lists through a head node. A node is `some b`, the head is `none`, and `Links` holds the two
pointers of every node. `r.IsList l` says that the pointers lead from the head over the nodes `l` back to it, in both
directions.
-/

structure Links (β : Type) where
  next : Option β → Option β
  prev : Option β → Option β

namespace Links

variable {β : Type}

def Path (r : Links β) (x : Option β) : List β → Option β → Prop
  | [], y => r.next x = y ∧ r.prev y = x
  | b :: l, y => r.next x = some b ∧ r.prev (some b) = x ∧ r.Path (some b) l y

structure IsList (r : Links β) (l : List β) : Prop where
  nodup : l.Nodup
  path : r.Path none l none

-- The loop that follows `next` from `x` until it meets the head or a node with `f`. It is `none` if this takes more
-- than the given number of rounds.
def find (next : Option β → Option β) (f : β → Bool) : Nat → Option β → Option (Option β)
  | _, none => some none
  | 0, some _ => none
  | n + 1, some b => if f b then some (some b) else find next f n (next (some b))

def empty : Links β where
  next := id
  prev := id

section

variable [DecidableEq β]

def unlink (r : Links β) (b : Option β) : Links β :=
  let r := { r with prev := Function.update r.prev (r.next b) (r.prev b) }
  { r with next := Function.update r.next (r.prev b) (r.next b) }

-- The node becomes the first one.
def insert (r : Links β) (b : Option β) : Links β :=
  let r := { r with next := Function.update r.next b (r.next none) }
  let r := { r with prev := Function.update r.prev b none }
  let r := { r with prev := Function.update r.prev (r.next none) b }
  { r with next := Function.update r.next none b }

end

variable {r r' : Links β} {x y : Option β} {b : β} {l l' : List β}

theorem path_append : r.Path x (l ++ b :: l') y ↔ r.Path x l (some b) ∧ r.Path (some b) l' y := by
  induction l generalizing x with
  | nil =>
    simp only [List.nil_append, Path]
    exact and_assoc.symm
  | cons a l ih =>
    simp only [List.cons_append, Path, ih]
    constructor
    . rintro ⟨h1, h2, h3, h4⟩
      exact ⟨⟨h1, h2, h3⟩, h4⟩
    . rintro ⟨⟨h1, h2, h3⟩, h4⟩
      exact ⟨h1, h2, h3, h4⟩

theorem Path.congr (h : r.Path x l y) (hx : r'.next x = r.next x) (hy : r'.prev y = r.prev y)
    (hnext : ∀ b ∈ l, r'.next (some b) = r.next (some b)) (hprev : ∀ b ∈ l, r'.prev (some b) = r.prev (some b))
    : r'.Path x l y := by
  induction l generalizing x with
  | nil =>
    obtain ⟨h1, h2⟩ := h
    exact ⟨hx.trans h1, hy.trans h2⟩
  | cons a l ih =>
    obtain ⟨h1, h2, h3⟩ := h
    refine ⟨hx.trans h1, (hprev a List.mem_cons_self).trans h2, ?_⟩
    apply ih h3 (hnext a List.mem_cons_self)
    . intro b hb
      exact hnext b (List.mem_cons_of_mem a hb)
    . intro b hb
      exact hprev b (List.mem_cons_of_mem a hb)

theorem Path.prev_mem (h : r.Path x l y) : r.prev y = x ∨ ∃ b ∈ l, r.prev y = some b := by
  induction l generalizing x with
  | nil => exact .inl h.2
  | cons a l ih =>
    rcases ih h.2.2 with heq | ⟨b, hb, heq⟩
    . exact .inr ⟨a, List.mem_cons_self, heq⟩
    . exact .inr ⟨b, List.mem_cons_of_mem a hb, heq⟩

theorem Path.next_mem (h : r.Path x l y) : r.next x = y ∨ ∃ b ∈ l, r.next x = some b := by
  cases l with
  | nil => exact .inl h.1
  | cons a l => exact .inr ⟨a, List.mem_cons_self, h.1⟩

theorem IsList.find_next (h : r.IsList l) (f : β → Bool) {n : Nat} (hn : l.length ≤ n)
    : find r.next f n (r.next none) = some (l.find? f) := by
  have key : ∀ l x n, r.Path x l none → l.length ≤ n → find r.next f n (r.next x) = some (l.find? f) := by
    intro l
    induction l with
    | nil =>
      intro x n h _
      rw [h.1]
      cases n <;> rfl
    | cons a l ih =>
      intro x n h hn
      obtain ⟨n, rfl⟩ : ∃ m, n = m + 1 := ⟨n - 1, by simp at hn; omega⟩
      rw [h.1, find, List.find?_cons]
      split
      . next hf => simp [hf]
      . next hf =>
        rw [ih (some a) n h.2.2 (by simpa using hn)]
        simp [hf]
  exact key l none n h.path hn

section

variable [DecidableEq β]

theorem unlink_next (r : Links β) (b : Option β)
    : (r.unlink b).next = Function.update r.next (r.prev b) (r.next b) := by
  simp only [unlink, Function.update_apply]
  split
  . next h => rw [← h]
  . rfl

theorem unlink_prev (r : Links β) (b : Option β) : (r.unlink b).prev = Function.update r.prev (r.next b) (r.prev b) :=
  rfl

theorem Path.unlink (hl : r.Path x l (some b)) (hl' : r.Path (some b) l' y) (hnodup : (l ++ b :: l').Nodup)
    (hx : ∀ a ∈ l ++ b :: l', x ≠ some a) (hy : ∀ a ∈ l ++ b :: l', y ≠ some a)
    : (r.unlink (some b)).Path x (l ++ l') y := by
  induction l generalizing x with
  | nil =>
    obtain ⟨-, hprev⟩ := hl
    have hnext' : (r.unlink (some b)).next = Function.update r.next x (r.next (some b)) := by
      rw [unlink_next, hprev]
    have hprev' : (r.unlink (some b)).prev = Function.update r.prev (r.next (some b)) x := by
      rw [unlink_prev, hprev]
    cases l' with
    | nil =>
      obtain ⟨hnext, -⟩ := hl'
      rw [hnext] at hnext' hprev'
      exact ⟨by simp [hnext'], by simp [hprev']⟩
    | cons c l' =>
      obtain ⟨hnext, -, hpath⟩ := hl'
      rw [hnext] at hnext' hprev'
      simp only [List.nil_append, List.nodup_cons] at hnodup
      refine ⟨by simp [hnext'], by simp [hprev'], ?_⟩
      apply hpath.congr
      . rw [hnext', Function.update_of_ne]
        exact Ne.symm (hx c (by simp))
      . rw [hprev', Function.update_of_ne]
        exact hy c (by simp)
      . intro a ha
        rw [hnext', Function.update_of_ne]
        exact Ne.symm (hx a (by simp [ha]))
      . intro a ha
        rw [hprev', Function.update_of_ne]
        rintro ⟨rfl⟩
        exact hnodup.2.1 ha
  | cons a l ih =>
    obtain ⟨hnext, hprev, hpath⟩ := hl
    rw [List.cons_append, List.nodup_cons] at hnodup
    refine ⟨?_, ?_, ?_⟩
    . rw [unlink_next, Function.update_of_ne, hnext]
      rcases hpath.prev_mem with heq | ⟨c, hc, heq⟩
      . rw [heq]
        exact hx a (by simp)
      . rw [heq]
        exact hx c (by simp [hc])
    . rw [unlink_prev, Function.update_of_ne, hprev]
      rcases hl'.next_mem with heq | ⟨c, hc, heq⟩
      . rw [heq]
        exact Ne.symm (hy a (by simp))
      . rw [heq]
        rintro ⟨rfl⟩
        exact hnodup.1 (by simp [hc])
    . apply ih hpath hnodup.2
      . rintro c hc ⟨rfl⟩
        exact hnodup.1 hc
      . intro c hc
        exact hy c (by simp at hc ⊢; exact .inr hc)

theorem IsList.unlink (h : r.IsList (l ++ b :: l')) : (r.unlink (some b)).IsList (l ++ l') where
  nodup := h.nodup.sublist (by simp)
  path := by
    have := path_append.mp h.path
    exact this.1.unlink this.2 h.nodup (by simp) (by simp)

theorem IsList.insert (h : r.IsList l) (hb : b ∉ l) : (r.insert (some b)).IsList (b :: l) where
  nodup := List.nodup_cons.mpr ⟨hb, h.nodup⟩
  path := by
    have hnext : (r.insert (some b)).next = Function.update (Function.update r.next (some b) (r.next none)) none (some b) :=
      rfl
    have hprev : (r.insert (some b)).prev = Function.update (Function.update r.prev (some b) none) (r.next none) (some b) := by
      simp [Links.insert]
    have hfirst : r.next none ≠ some b := by
      rcases h.path.next_mem with heq | ⟨c, hc, heq⟩
      . simp [heq]
      . rw [heq]
        rintro ⟨rfl⟩
        exact hb hc
    have hpath := h.path
    refine ⟨by simp [hnext], by simp [hprev, hfirst.symm], ?_⟩
    cases l with
    | nil =>
      obtain ⟨h1, h2⟩ := hpath
      refine ⟨by simp [hnext, h1], by simp [hprev, h1]⟩
    | cons c l =>
      obtain ⟨h1, h2, h3⟩ := hpath
      have hnodup := List.nodup_cons.mp h.nodup
      refine ⟨by simp [hnext, h1], by simp [hprev, h1], ?_⟩
      apply h3.congr
      . have : c ≠ b := by
          rintro rfl
          exact hb List.mem_cons_self
        simp [hnext, this]
      . simp [hprev, h1]
      . intro a ha
        have : a ≠ b := by
          rintro rfl
          exact hb (List.mem_cons_of_mem c ha)
        simp [hnext, this]
      . intro a ha
        have hab : a ≠ b := by
          rintro rfl
          exact hb (List.mem_cons_of_mem c ha)
        have hac : a ≠ c := by
          rintro rfl
          exact hnodup.1 ha
        simp [hprev, h1, hab, hac]

theorem IsList.touch (h : r.IsList l) (hb : b ∈ l) : ((r.unlink (some b)).insert (some b)).IsList (b :: l.erase b) := by
  obtain ⟨l1, l2, hb1, rfl, herase⟩ := List.exists_erase_eq hb
  rw [herase]
  apply h.unlink.insert
  have := h.nodup
  rw [List.nodup_middle, List.nodup_cons] at this
  exact this.1

end

theorem empty_isList : (empty : Links β).IsList [] where
  nodup := List.nodup_nil
  path := ⟨rfl, rfl⟩

-- The list in the other direction.
def flip (r : Links β) : Links β where
  next := r.prev
  prev := r.next

theorem Path.flip (h : r.Path x l y) : r.flip.Path y l.reverse x := by
  induction l generalizing x with
  | nil => exact ⟨h.2, h.1⟩
  | cons a l ih =>
    rw [List.reverse_cons, path_append]
    exact ⟨ih h.2.2, h.2.1, h.1⟩

theorem IsList.flip (h : r.IsList l) : r.flip.IsList l.reverse where
  nodup := List.nodup_reverse.mpr h.nodup
  path := h.path.flip

end Links
