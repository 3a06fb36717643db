import Mathlib.Computability.Language
import Xv6.Grep.Impl

/-!
What `match` looks for: the language of a regular expression that is read from left to right.
-/

namespace Xv6.Grep

open Computability

inductive Item where
  | char (c : UInt8)
  | star (c : UInt8)
  deriving DecidableEq, Repr

-- What the character `c` of the expression stands for.
def Fits (c t : UInt8) : Prop :=
  c = DOT ∨ c = t

instance (c t : UInt8) : Decidable (Fits c t) :=
  inferInstanceAs (Decidable (_ ∨ _))

def charLanguage (c : UInt8) : Language UInt8 :=
  { x | ∃ t, x = [t] ∧ Fits c t }

def Item.language : Item → Language UInt8
  | .char c => charLanguage c
  | .star c => (charLanguage c)∗

def items : List UInt8 → List Item
  | [] => []
  | [c] => [.char c]
  | c :: d :: re => if d = STAR then .star c :: items re else .char c :: items (d :: re)

-- The last item is `$`, and the items without it.
def toEnd (l : List Item) : Prop :=
  l.getLast? = some (.char DOLLAR)

instance (l : List Item) : Decidable (toEnd l) :=
  inferInstanceAs (Decidable (_ = _))

def body (l : List Item) : List Item :=
  if toEnd l then l.dropLast else l

/-- The product of the languages of the items. -/
def language (l : List Item) : Language UInt8 :=
  ((body l).map Item.language).prod

-- An expression behind the `^`, if there is one.
def behindCaret (re : List UInt8) : List UInt8 :=
  if re.head? = some CARET then re.tail else re

-- A text begins with a word of the language, which is all of it if the last item is `$`.
def Begins (l : List Item) (text : List UInt8) : Prop :=
  ∃ y z, text = y ++ z ∧ y ∈ language l ∧ (toEnd l → z = [])

variable {c d : UInt8} {i : Item} {l : List Item} {re text y : List UInt8}

theorem mem_charLanguage_star : y ∈ (charLanguage c)∗ ↔ ∀ t ∈ y, Fits c t := by
  rw [Language.mem_kstar]
  constructor
  . rintro ⟨L, rfl, hL⟩ t ht
    obtain ⟨x, hx, htx⟩ := List.mem_flatten.mp ht
    obtain ⟨t', rfl, hfits⟩ := hL x hx
    rwa [List.mem_singleton.mp htx]
  . intro h
    refine ⟨y.map fun t => [t], ?_, ?_⟩
    . induction y with
      | nil => rfl
      | cons t y ih =>
        rw [List.map_cons, List.flatten_cons, ← ih fun t ht => h t (List.mem_cons_of_mem _ ht)]
        rfl
    . intro x hx
      obtain ⟨t, ht, rfl⟩ := List.mem_map.mp hx
      exact ⟨t, rfl, h t ht⟩

theorem begins_nil (text : List UInt8) : Begins [] text :=
  ⟨[], text, rfl, rfl, nofun⟩

theorem begins_dollar : Begins [.char DOLLAR] text ↔ text = [] := by
  constructor
  . rintro ⟨y, z, rfl, hy, hz⟩
    rw [hz rfl, List.append_nil]
    exact hy
  . rintro rfl
    exact ⟨[], [], rfl, rfl, fun _ => rfl⟩

-- The first item of an expression, unless it is a `$` at the end.
theorem begins_cons (h : i = .char DOLLAR → l ≠ [])
    : Begins (i :: l) text ↔ ∃ y z, text = y ++ z ∧ y ∈ i.language ∧ Begins l z := by
  have hend : toEnd (i :: l) ↔ toEnd l := by
    unfold toEnd
    cases l with
    | nil =>
      constructor
      . intro heq
        exact absurd rfl (h (Option.some.inj heq))
      . nofun
    | cons j l => rw [List.getLast?_cons_cons]
  have hlanguage : language (i :: l) = i.language * language l := by
    unfold language body
    by_cases hl : toEnd l
    . have hne : l ≠ [] := by
        rintro rfl
        cases hl
      rw [if_pos (hend.mpr hl), if_pos hl, List.dropLast_cons_of_ne_nil hne, List.map_cons, List.prod_cons]
    . rw [if_neg (mt hend.mp hl), if_neg hl, List.map_cons, List.prod_cons]
  unfold Begins
  simp only [hend, hlanguage]
  constructor
  . rintro ⟨y, z, rfl, hy, hz⟩
    obtain ⟨y1, hy1, y2, hy2, rfl⟩ := Language.mem_mul.mp hy
    exact ⟨y1, y2 ++ z, List.append_assoc _ _ _, hy1, y2, z, rfl, hy2, hz⟩
  . rintro ⟨y1, z, rfl, hy1, y2, z, rfl, hy2, hz⟩
    exact ⟨y1 ++ y2, z, (List.append_assoc _ _ _).symm, Language.mem_mul.mpr ⟨y1, hy1, y2, hy2, rfl⟩, hz⟩

theorem begins_char (h : c = DOLLAR → l ≠ []) (text : List UInt8)
    : Begins (.char c :: l) text ↔ ∃ t r, text = t :: r ∧ Fits c t ∧ Begins l r := by
  rw [begins_cons (by simpa using h)]
  constructor
  . rintro ⟨y, r, rfl, ⟨t, rfl, hfits⟩, hr⟩
    exact ⟨t, r, rfl, hfits, hr⟩
  . rintro ⟨t, r, rfl, hfits, hr⟩
    exact ⟨[t], r, rfl, ⟨t, rfl, hfits⟩, hr⟩

-- The loop tries the shortest word first, and goes on as long as the characters fit.
theorem matchstar_iff (f : List UInt8 → Bool) (c : UInt8) (text : List UInt8)
    : matchstar f c text = true ↔ ∃ y z, text = y ++ z ∧ (∀ t ∈ y, Fits c t) ∧ f z = true := by
  induction text with
  | nil =>
    unfold matchstar
    constructor
    . intro h
      exact ⟨[], [], rfl, by simp, h⟩
    . rintro ⟨y, z, heq, -, hz⟩
      rw [(List.append_eq_nil_iff.mp heq.symm).2] at hz
      exact hz
  | cons t text ih =>
    have hfits : (decide (t = c) || decide (c = DOT)) = true ↔ Fits c t := by
      unfold Fits
      rw [Bool.or_eq_true, decide_eq_true_eq, decide_eq_true_eq, or_comm, eq_comm (a := t)]
    unfold matchstar
    rw [Bool.or_eq_true, Bool.and_eq_true, hfits, ih]
    constructor
    . rintro (h | ⟨ht, y, z, rfl, hy, hz⟩)
      . exact ⟨[], t :: text, rfl, by simp, h⟩
      . exact ⟨t :: y, z, rfl, List.forall_mem_cons.mpr ⟨ht, hy⟩, hz⟩
    . rintro ⟨y, z, heq, hy, hz⟩
      cases y with
      | nil =>
        left
        rw [List.nil_append] at heq
        rwa [heq]
      | cons t' y =>
        rw [List.cons_append, List.cons.injEq] at heq
        obtain ⟨rfl, rfl⟩ := heq
        obtain ⟨ht, hy⟩ := List.forall_mem_cons.mp hy
        exact .inr ⟨ht, y, z, rfl, hy, hz⟩

theorem matchhere_char {f : List UInt8 → Bool} (hf : ∀ r, f r = true ↔ Begins l r) (h : c = DOLLAR → l ≠ [])
    (text : List UInt8)
    : (match text with
        | [] => false
        | t :: text => (c = DOT || c = t) && f text) = true ↔ Begins (.char c :: l) text := by
  rw [begins_char h]
  cases text with
  | nil => simp
  | cons t text =>
    dsimp only
    rw [Bool.and_eq_true, Bool.or_eq_true, decide_eq_true_eq, decide_eq_true_eq, hf]
    constructor
    . rintro ⟨hfits, hr⟩
      exact ⟨t, text, rfl, hfits, hr⟩
    . rintro ⟨t', r, heq, hfits, hr⟩
      cases heq
      exact ⟨hfits, hr⟩

theorem items_ne_nil (d : UInt8) (re : List UInt8) : items (d :: re) ≠ [] := by
  cases re with
  | nil => nofun
  | cons e re =>
    unfold items
    split <;> nofun

theorem matchhere_iff : ∀ re text : List UInt8, matchhere re text = true ↔ Begins (items re) text
  | [], text => by
    unfold matchhere items
    exact iff_of_true rfl (begins_nil text)
  | [c], text => by
    unfold matchhere items
    by_cases hc : c = DOLLAR
    . rw [if_pos hc, hc, begins_dollar]
      exact List.isEmpty_iff
    . have hnil : ∀ r, (fun _ => true) r = true ↔ Begins [] r := fun r => iff_of_true rfl (begins_nil r)
      rw [if_neg hc, ← matchhere_char hnil fun h => absurd h hc]
      cases text with
      | nil => rfl
      | cons t text =>
        dsimp only
        rw [Bool.and_true]
  | c :: d :: re, text => by
    unfold matchhere items
    by_cases hd : d = STAR
    . rw [if_pos hd, if_pos hd, matchstar_iff, begins_cons (i := .star c) nofun]
      simp only [matchhere_iff re, Item.language, mem_charLanguage_star]
    . rw [if_neg hd, if_neg hd]
      exact matchhere_char (matchhere_iff (d :: re)) (fun _ => items_ne_nil d re) text

theorem matchLoop_iff (re text : List UInt8)
    : matchLoop re text = true ↔ ∃ x r, text = x ++ r ∧ Begins (items re) r := by
  induction text with
  | nil =>
    unfold matchLoop
    rw [matchhere_iff]
    constructor
    . intro h
      exact ⟨[], [], rfl, h⟩
    . rintro ⟨x, r, heq, h⟩
      rwa [(List.append_eq_nil_iff.mp heq.symm).2] at h
  | cons t text ih =>
    unfold matchLoop
    rw [Bool.or_eq_true, matchhere_iff, ih]
    constructor
    . rintro (h | ⟨x, r, rfl, h⟩)
      . exact ⟨[], t :: text, rfl, h⟩
      . exact ⟨t :: x, r, rfl, h⟩
    . rintro ⟨x, r, heq, h⟩
      cases x with
      | nil =>
        left
        rw [List.nil_append] at heq
        rwa [heq]
      | cons t' x =>
        rw [List.cons_append, List.cons.injEq] at heq
        obtain ⟨rfl, rfl⟩ := heq
        exact .inr ⟨x, r, rfl, h⟩

/-- The texts that match: a word of the language, at the beginning behind `^` and at the end in front of `$`. -/
theorem match_iff (re text : List UInt8)
    : matchRe re text = true ↔ ∃ x y z, text = x ++ y ++ z ∧ (re.head? = some CARET → x = []) ∧
        y ∈ language (items (behindCaret re)) ∧ (toEnd (items (behindCaret re)) → z = []) := by
  have hloop : (re.head? ≠ some CARET) → (matchLoop re text = true ↔ ∃ x y z, text = x ++ y ++ z ∧
      (re.head? = some CARET → x = []) ∧ y ∈ language (items (behindCaret re)) ∧
      (toEnd (items (behindCaret re)) → z = [])) := by
    intro hne
    rw [matchLoop_iff, behindCaret, if_neg hne]
    constructor
    . rintro ⟨x, r, rfl, y, z, rfl, hy, hz⟩
      exact ⟨x, y, z, (List.append_assoc _ _ _).symm, fun h => absurd h hne, hy, hz⟩
    . rintro ⟨x, y, z, rfl, -, hy, hz⟩
      exact ⟨x, y ++ z, List.append_assoc _ _ _, y, z, rfl, hy, hz⟩
  unfold matchRe
  cases re with
  | nil => exact hloop nofun
  | cons c re =>
    dsimp only
    by_cases hc : c = CARET
    . rw [if_pos hc, matchhere_iff, hc]
      constructor
      . rintro ⟨y, z, rfl, hy, hz⟩
        exact ⟨[], y, z, rfl, fun _ => rfl, hy, hz⟩
      . rintro ⟨x, y, z, rfl, hx, hy, hz⟩
        rw [hx rfl]
        exact ⟨y, z, rfl, hy, hz⟩
    . rw [if_neg hc]
      exact hloop (by simpa using hc)

-- `^*a` is a star and an `a` at the beginning, and `a$*` an `a` with any number of `$`.
example : items (behindCaret [94, 42, 97]) = [.char 42, .char 97] ∧ items [97, 36, 42] = [.char 97, .star 36] := by
  decide

end Xv6.Grep
