import Mathlib.Data.List.DropRight
import Xv6.Fs.Dirent
import Xv6.Path.Impl

/-!
`skipelem` takes the elements of a path one after the other.
-/

namespace Xv6.Path

open Fs

variable {path path' name name' l s : List UInt8} {c : UInt8}

-- The bytes in front of the zero.
def str (l : List UInt8) : List UInt8 :=
  l.takeWhile (· ≠ 0)

-- What is in the buffer `name`.
def nameOf (name : List UInt8) : List UInt8 :=
  str (name.take DIRSIZ)

/-- The longest pieces of the path without a slash, cut to the length of a name. -/
def components (path : List UInt8) : List (List UInt8) :=
  (((str path).splitOnP (· = SLASH)).filter (· ≠ [])).map (List.take DIRSIZ)

theorem str_of_headD (h : path.headD 0 = 0) : str path = [] := by
  cases path with
  | nil => rfl
  | cons c l =>
    have hc : c = 0 := h
    rw [str, List.takeWhile_cons_of_neg (by simp [hc])]

theorem str_cons (h : c ≠ 0) : str (c :: l) = c :: str l := by
  rw [str, List.takeWhile_cons_of_pos (by simp [h])]
  rfl

theorem str_eq_self (h : ∀ c ∈ l, c ≠ 0) : str l = l := by
  rw [str, List.takeWhile_eq_self_iff]
  intro c hc
  exact decide_eq_true (h c hc)

theorem str_append (h : ∀ c ∈ s, c ≠ 0) (l : List UInt8) : str (s ++ l) = s ++ str l := by
  induction s with
  | nil => rfl
  | cons c s ih =>
    rw [List.cons_append, str_cons (h c List.mem_cons_self), ih fun a ha => h a (List.mem_cons_of_mem _ ha)]
    rfl

theorem components_of_headD (h : path.headD 0 = 0) : components path = [] := by
  rw [components, str_of_headD h]
  rfl

@[simp]
theorem components_slash (l : List UInt8) : components (SLASH :: l) = components l := by
  rw [components, str_cons (by decide), List.splitOnP_cons_eq_if_modifyHead, if_pos (decide_eq_true rfl)]
  rfl

theorem components_dropWhile (path : List UInt8) : components (path.dropWhile (· = SLASH)) = components path := by
  induction path with
  | nil => rfl
  | cons c l ih =>
    by_cases hc : c = SLASH
    . rw [List.dropWhile_cons_of_pos (by simpa using hc), ih, hc, components_slash]
    . rw [List.dropWhile_cons_of_neg (by simpa using hc)]

theorem inElem_iff : inElem c = true ↔ c ≠ SLASH ∧ c ≠ 0 := by
  simp [inElem]

theorem mem_takeWhile_inElem (h : c ∈ path.takeWhile inElem) : c ≠ SLASH ∧ c ≠ 0 :=
  inElem_iff.mp (List.mem_takeWhile_imp h)

theorem headD_dropWhile_inElem (path : List UInt8)
    : (path.dropWhile inElem).headD 0 = 0 ∨ ∃ l, path.dropWhile inElem = SLASH :: l := by
  have hhead := List.head?_dropWhile_not inElem path
  cases heq : path.dropWhile inElem with
  | nil => exact .inl rfl
  | cons c l =>
    rw [heq] at hhead
    have hc : inElem c = false := hhead
    by_cases hslash : c = SLASH
    . exact .inr ⟨l, by rw [hslash]⟩
    . left
      by_contra hne
      rw [inElem_iff.mpr ⟨hslash, hne⟩] at hc
      cases hc

theorem components_elem (hslash : path.headD 0 ≠ SLASH) (hne : path.headD 0 ≠ 0)
    : components path = (path.takeWhile inElem).take DIRSIZ :: components (path.dropWhile inElem) := by
  have hsplit : path = path.takeWhile inElem ++ path.dropWhile inElem := List.takeWhile_append_dropWhile.symm
  have hnil : path.takeWhile inElem ≠ [] := by
    cases path with
    | nil => exact absurd rfl hne
    | cons c l =>
      have hc : inElem c = true := inElem_iff.mpr ⟨hslash, hne⟩
      rw [List.takeWhile_cons_of_pos hc]
      exact List.cons_ne_nil _ _
  have hbytes : ∀ c ∈ path.takeWhile inElem, c ≠ SLASH ∧ c ≠ 0 := fun c hc => mem_takeWhile_inElem hc
  have hend := headD_dropWhile_inElem path
  have hclean : ∀ c ∈ path.takeWhile inElem, decide (c = SLASH) = false := fun c hc => decide_eq_false (hbytes c hc).1
  rw [components, hsplit, str_append fun c hc => (hbytes c hc).2]
  rw [← hsplit]
  generalize path.takeWhile inElem = s at *
  generalize path.dropWhile inElem = rest at *
  rcases hend with hend | ⟨l, rfl⟩
  . rw [components_of_headD hend, str_of_headD hend, List.append_nil, List.splitOnP_eq_singleton hclean]
    simp [hnil]
  . rw [components_slash, str_cons (by decide),
      List.splitOnP_append_cons_of_forall_mem hclean SLASH (decide_eq_true rfl)]
    simp [hnil, components]

theorem headD_dropWhile_slash (path : List UInt8) : (path.dropWhile (· = SLASH)).headD 0 ≠ SLASH := by
  have hhead := List.head?_dropWhile_not (· = SLASH) path
  cases heq : path.dropWhile (· = SLASH) with
  | nil => decide
  | cons c l =>
    rw [heq] at hhead
    exact of_decide_eq_false hhead

theorem nameOf_skipelem (h : ∀ c ∈ s, c ≠ 0) (name : List UInt8)
    : nameOf (if s.length ≥ DIRSIZ then s.take DIRSIZ ++ name.drop DIRSIZ else s ++ 0 :: name.drop (s.length + 1)) =
        s.take DIRSIZ := by
  unfold nameOf
  split
  . next hlen =>
    rw [List.take_left' (List.length_take_of_le hlen)]
    exact str_eq_self fun c hc => h c (List.mem_of_mem_take hc)
  . next hlen =>
    rw [List.take_of_length_le (Nat.le_of_not_le hlen), List.take_append,
      List.take_of_length_le (Nat.le_of_not_le hlen), str_append h, str_of_headD, List.append_nil]
    have hpos : DIRSIZ - s.length = DIRSIZ - s.length - 1 + 1 := by omega
    rw [hpos, List.take_succ_cons]
    rfl

theorem components_eq_nil (path : List UInt8) : components path = [] ↔ (path.dropWhile (· = SLASH)).headD 0 = 0 := by
  rw [← components_dropWhile]
  constructor
  . intro h
    by_contra hne
    rw [components_elem (headD_dropWhile_slash path) hne] at h
    cases h
  . exact components_of_headD

theorem skipelem_none (h : components path = []) (name : List UInt8) : skipelem path name = none := by
  rw [components_eq_nil] at h
  unfold skipelem
  rw [if_pos h]

theorem skipelem_some {cs : List (List UInt8)} {e : List UInt8} (h : components path = e :: cs) (name : List UInt8)
    : ∃ path' name', skipelem path name = some (path', name') ∧ components path' = cs ∧ nameOf name' = e ∧
        (path'.headD 0 = 0 ↔ cs = []) := by
  have hne : (path.dropWhile (· = SLASH)).headD 0 ≠ 0 := by
    intro hend
    rw [(components_eq_nil path).mpr hend] at h
    cases h
  rw [← components_dropWhile, components_elem (headD_dropWhile_slash path) hne, List.cons.injEq] at h
  obtain ⟨rfl, rfl⟩ := h
  unfold skipelem
  dsimp only
  rw [if_neg hne]
  refine ⟨_, _, rfl, components_dropWhile _, nameOf_skipelem (fun c hc => (mem_takeWhile_inElem hc).2) name, ?_⟩
  rw [components_eq_nil]

-- The elements that the loop of `namex` sees.
def elems (path name : List UInt8) : List (List UInt8) :=
  match _h : skipelem path name with
  | none => []
  | some (path', name') => nameOf name' :: elems path' name'
termination_by path.length
decreasing_by exact skipelem_length _h

/-- `skipelem` yields the components of the path in their order. -/
theorem elems_eq (path name : List UInt8) : elems path name = components path := by
  generalize hcs : components path = cs
  induction cs generalizing path name with
  | nil =>
    unfold elems
    split
    . rfl
    . next hsome =>
      rw [skipelem_none hcs] at hsome
      cases hsome
  | cons e cs ih =>
    obtain ⟨path', name', hskip, hpath, hname, -⟩ := skipelem_some hcs name
    unfold elems
    split
    . next hnone =>
      rw [hskip] at hnone
      cases hnone
    . next hsome =>
      rw [hskip] at hsome
      cases hsome
      rw [hname, ih path' name' hpath]

example : elems [47, 47, 47, 97, 47, 47, 98, 98] [] = [[97], [98, 98]] := by
  rw [elems_eq]
  decide

theorem strncpy_nameOf (n : Nat) (name : List UInt8) : strncpy n (str (name.take n)) = strncpy n name := by
  induction n generalizing name with
  | zero => rfl
  | succ n ih =>
    cases name with
    | nil => rfl
    | cons c l =>
      by_cases hc : c = 0
      . rw [str_of_headD (by rw [List.take_succ_cons]; exact hc)]
        simp [strncpy, hc]
      . rw [List.take_succ_cons, str_cons hc, strncpy, strncpy]
        simp only [List.headD_cons, hc, if_false, List.tail_cons, ih]

theorem key_nameOf (name : List UInt8) : key (nameOf name) = key name :=
  strncpy_nameOf DIRSIZ name

end Xv6.Path
