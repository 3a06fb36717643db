import Mathlib.Data.List.Basic
import Xv6.Grep.Impl

/-!
What `grep` writes, and how it depends on the way in which `read` cuts its input. A read that brings no newline empties
the buffer, so the beginning of the line is lost.
-/

namespace Xv6.Grep

variable {pattern buf bytes b l r x y : List UInt8} {reads : List (List UInt8)} {fuel : Nat}

-- The lines that end in a newline, and what is behind the last one of them.
def lines (b : List UInt8) : List (List UInt8) :=
  (b.splitOn NEWLINE).dropLast

def rest (b : List UInt8) : List UInt8 :=
  (b.splitOn NEWLINE).getLastD []

/-- The lines that match. -/
def matching (pattern b : List UInt8) : List (List UInt8) :=
  ((lines b).filter (matchRe pattern)).map (· ++ [NEWLINE])

-- What is left in the buffer at the next read.
def carry (b : List UInt8) : List UInt8 :=
  if NEWLINE ∈ b then rest b else []

/-- What `read` may return: at least one byte, and no more than it is asked for. -/
def Reads : List UInt8 → List (List UInt8) → Prop
  | _, [] => True
  | buf, bytes :: reads =>
    bytes ≠ [] ∧ bytes.length ≤ BUFSIZE - buf.length - 1 ∧ Reads (carry (buf ++ bytes)) reads

section

theorem lines_of_notMem (h : NEWLINE ∉ b) : lines b = [] := by
  rw [lines, List.splitOn_eq_singleton h]
  rfl

theorem rest_of_notMem (h : NEWLINE ∉ b) : rest b = b := by
  rw [rest, List.splitOn_eq_singleton h]
  rfl

theorem lines_cons (h : NEWLINE ∉ l) : lines (l ++ NEWLINE :: r) = l :: lines r := by
  rw [lines, List.splitOn_append_cons_self_of_not_mem h, List.dropLast_cons_of_ne_nil (List.splitOn_ne_nil _ _)]
  rfl

theorem rest_cons (h : NEWLINE ∉ l) : rest (l ++ NEWLINE :: r) = rest r := by
  have hne : r.splitOn NEWLINE ≠ [] := List.splitOn_ne_nil _ _
  rw [rest, List.splitOn_append_cons_self_of_not_mem h, rest, List.getLastD_eq_getLast?, List.getLastD_eq_getLast?,
    List.getLast?_cons_of_ne_nil hne]

/-- A text is a text without a newline, or a line in front of a text. -/
theorem line_induction {P : List UInt8 → Prop} (hrest : ∀ b, NEWLINE ∉ b → P b)
    (hline : ∀ l r, NEWLINE ∉ l → P r → P (l ++ NEWLINE :: r)) (b : List UInt8)
    : P b := by
  induction hn : b.length using Nat.strongRecOn generalizing b with
  | ind n ih =>
    by_cases h : NEWLINE ∈ b
    . obtain ⟨l, r, rfl, hl⟩ := List.eq_append_cons_of_mem h
      apply hline l r hl
      apply ih r.length _ r rfl
      rw [← hn, List.length_append, List.length_cons]
      omega
    . exact hrest b h

theorem rest_notMem (b : List UInt8) : NEWLINE ∉ rest b := by
  induction b using line_induction with
  | hrest b hb => rwa [rest_of_notMem hb]
  | hline l r hl ih => rwa [rest_cons hl]

theorem lines_append (x y : List UInt8) : lines (x ++ y) = lines x ++ lines (rest x ++ y) := by
  induction x using line_induction with
  | hrest x hx => rw [lines_of_notMem hx, rest_of_notMem hx, List.nil_append]
  | hline l r hl ih =>
    rw [List.append_assoc, List.cons_append, lines_cons hl, lines_cons hl, rest_cons hl, ih, List.cons_append]

theorem matching_append (pattern x y : List UInt8)
    : matching pattern (x ++ y) = matching pattern x ++ matching pattern (rest x ++ y) := by
  rw [matching, lines_append, List.filter_append, List.map_append]
  rfl

theorem matching_of_notMem (h : NEWLINE ∉ b) : matching pattern b = [] := by
  rw [matching, lines_of_notMem h]
  rfl

theorem matching_cons (h : NEWLINE ∉ l)
    : matching pattern (l ++ NEWLINE :: r) =
      if matchRe pattern l then (l ++ [NEWLINE]) :: matching pattern r else matching pattern r := by
  rw [matching, lines_cons h, List.filter_cons]
  split <;> rfl

end

section

theorem strchr_of_notMem (h : NEWLINE ∉ b) : strchr NEWLINE b = none := by
  induction b with
  | nil => rfl
  | cons c b ih =>
    rw [List.mem_cons, not_or] at h
    unfold strchr
    rw [ih h.2]
    split
    . rfl
    . rw [if_neg (Ne.symm h.1)]
      rfl

theorem strchr_append (hnul : (0 : UInt8) ∉ l) (h : NEWLINE ∉ l) : strchr NEWLINE (l ++ NEWLINE :: r) = some l.length := by
  induction l with
  | nil =>
    show strchr NEWLINE (NEWLINE :: r) = _
    unfold strchr
    rw [if_neg (by decide), if_pos rfl]
    rfl
  | cons c l ih =>
    rw [List.mem_cons, not_or] at h hnul
    rw [List.cons_append]
    unfold strchr
    rw [if_neg (Ne.symm hnul.1), if_neg (Ne.symm h.1), ih hnul.2 h.2]
    rfl

theorem grepLines_spec (hnul : (0 : UInt8) ∉ b) (hfuel : b.length ≤ fuel)
    : grepLines pattern fuel b = (matching pattern b, rest b) := by
  induction b using line_induction generalizing fuel with
  | hrest b hb =>
    rw [matching_of_notMem hb, rest_of_notMem hb]
    cases fuel with
    | zero => rfl
    | succ fuel =>
      unfold grepLines
      rw [strchr_of_notMem hb]
  | hline l r hl ih =>
    rw [List.mem_append, List.mem_cons, not_or, not_or] at hnul
    cases fuel with
    | zero => simp at hfuel
    | succ fuel =>
      unfold grepLines
      rw [strchr_append hnul.1 hl]
      have hdrop : (l ++ NEWLINE :: r).drop (l.length + 1) = r := by
        rw [← List.drop_drop, List.drop_left]
        rfl
      have htake : (l ++ NEWLINE :: r).take (l.length + 1) = l ++ [NEWLINE] := by
        rw [List.take_append, List.take_of_length_le (Nat.le_succ _), Nat.add_sub_cancel_left]
        rfl
      have hlen : r.length ≤ fuel := by
        rw [List.length_append, List.length_cons] at hfuel
        omega
      dsimp only
      rw [hdrop, htake, List.take_left, ih hnul.2.2 hlen, matching_cons hl, rest_cons hl]

theorem length_rest_lt (h : NEWLINE ∈ b) : (rest b).length < b.length := by
  induction b using line_induction with
  | hrest b hb => exact absurd h hb
  | hline l r hl ih =>
    rw [rest_cons hl, List.length_append, List.length_cons]
    by_cases hr : NEWLINE ∈ r
    . have := ih hr
      omega
    . rw [rest_of_notMem hr]
      omega

theorem grepRound_eq (hnul : (0 : UInt8) ∉ buf ++ bytes)
    : grepRound pattern buf bytes = (matching pattern (buf ++ bytes), carry (buf ++ bytes)) := by
  unfold grepRound carry
  dsimp only
  rw [grepLines_spec hnul (Nat.le_refl _)]
  dsimp only
  by_cases h : NEWLINE ∈ buf ++ bytes
  . rw [if_pos h, if_neg (Nat.ne_of_lt (length_rest_lt h))]
  . rw [if_neg h, if_pos (by rw [rest_of_notMem h])]

end

section

theorem carry_notMem (b : List UInt8) : NEWLINE ∉ carry b := by
  unfold carry
  split
  . exact rest_notMem b
  . exact List.not_mem_nil

theorem carry_subset (b : List UInt8) : carry b ⊆ b := by
  have hrest : ∀ b, rest b ⊆ b := by
    intro b
    induction b using line_induction with
    | hrest b hb =>
      rw [rest_of_notMem hb]
      exact List.Subset.refl _
    | hline l r hl ih =>
      rw [rest_cons hl]
      exact fun c hc => List.mem_append_right _ (List.mem_cons_of_mem _ (ih hc))
  unfold carry
  split
  . exact hrest b
  . exact List.nil_subset _

theorem grep_cons (hnul : (0 : UInt8) ∉ buf ++ bytes)
    : grep pattern buf (bytes :: reads) = matching pattern (buf ++ bytes) ++ grep pattern (carry (buf ++ bytes)) reads := by
  rw [grep, grepRound_eq hnul]

theorem grep_of_notMem (hbuf : NEWLINE ∉ buf) (hreads : NEWLINE ∉ reads.flatten) (hnul : (0 : UInt8) ∉ buf ++ reads.flatten)
    : grep pattern buf reads = [] := by
  induction reads generalizing buf with
  | nil => rfl
  | cons bytes reads ih =>
    rw [List.flatten_cons, List.mem_append, not_or] at hreads
    rw [List.flatten_cons, ← List.append_assoc] at hnul
    have hx : NEWLINE ∉ buf ++ bytes := by simp [hbuf, hreads.1]
    have hnul' : (0 : UInt8) ∉ buf ++ bytes := fun h => hnul (List.mem_append_left _ h)
    rw [grep_cons hnul', matching_of_notMem hx, List.nil_append]
    apply ih (carry_notMem _) hreads.2
    intro h
    rcases List.mem_append.mp h with h | h
    . exact hnul' (carry_subset _ h)
    . exact hnul (List.mem_append_right _ h)

theorem matchRe_nil (text : List UInt8) : matchRe [] text = true := by
  cases text <;> simp [matchRe, matchLoop, matchhere]

/-- With the empty pattern all bytes up to the last newline are written. -/
theorem length_matching (b : List UInt8) : (matching [] b).flatten.length + (rest b).length = b.length := by
  induction b using line_induction with
  | hrest b hb =>
    rw [matching_of_notMem hb, rest_of_notMem hb]
    simp
  | hline l r hl ih =>
    rw [matching_cons hl, if_pos (matchRe_nil l), rest_cons hl, List.flatten_cons]
    simp only [List.length_append, List.length_cons, List.length_nil]
    omega

theorem rest_append (hx : NEWLINE ∉ x) (hy : NEWLINE ∈ y) : rest (x ++ y) = rest y := by
  obtain ⟨l, r, rfl, hl⟩ := List.eq_append_cons_of_mem hy
  rw [rest_cons hl, ← List.append_assoc, rest_cons]
  simp [hx, hl]

theorem length_matching_append (hx : NEWLINE ∉ x) (hy : NEWLINE ∈ y)
    : (matching [] (x ++ y)).flatten.length = x.length + (matching [] y).flatten.length := by
  have h1 := length_matching (x ++ y)
  have h2 := length_matching y
  rw [rest_append hx hy, List.length_append] at h1
  omega

theorem length_grep_le (hbuf : NEWLINE ∉ buf) (hnul : (0 : UInt8) ∉ buf ++ reads.flatten)
    : (grep [] buf reads).flatten.length ≤ (matching [] (buf ++ reads.flatten)).flatten.length := by
  induction reads generalizing buf with
  | nil => exact Nat.zero_le _
  | cons bytes reads ih =>
    rw [List.flatten_cons, ← List.append_assoc] at hnul ⊢
    have hnul' : (0 : UInt8) ∉ buf ++ bytes := fun h => hnul (List.mem_append_left _ h)
    have hnul'' : (0 : UInt8) ∉ carry (buf ++ bytes) ++ reads.flatten := by
      intro h
      rcases List.mem_append.mp h with h | h
      . exact hnul' (carry_subset _ h)
      . exact hnul (List.mem_append_right _ h)
    have := ih (carry_notMem _) hnul''
    rw [grep_cons hnul', matching_append [] (buf ++ bytes), List.flatten_append, List.flatten_append, List.length_append, List.length_append]
    apply Nat.add_le_add_left
    by_cases hx : NEWLINE ∈ buf ++ bytes
    . have hcarry : carry (buf ++ bytes) = rest (buf ++ bytes) := if_pos hx
      rw [← hcarry]
      exact this
    . have hcarry : carry (buf ++ bytes) = [] := if_neg hx
      rw [hcarry] at this
      rw [hcarry, rest_of_notMem hx]
      refine Nat.le_trans this ?_
      rw [List.nil_append]
      by_cases hy : NEWLINE ∈ reads.flatten
      . rw [length_matching_append hx hy]
        exact Nat.le_add_left _ _
      . rw [matching_of_notMem hy]
        exact Nat.zero_le _

/-- No read without a newline comes before a newline. -/
def NewlineFirst (reads : List (List UInt8)) : Prop :=
  reads.Pairwise fun bytes later => NEWLINE ∉ bytes → NEWLINE ∉ later

instance (reads : List (List UInt8)) : Decidable (NewlineFirst reads) :=
  inferInstanceAs (Decidable (List.Pairwise _ _))

theorem newlineFirst_cons
    : NewlineFirst (bytes :: reads) ↔ (NEWLINE ∉ bytes → NEWLINE ∉ reads.flatten) ∧ NewlineFirst reads := by
  unfold NewlineFirst
  rw [List.pairwise_cons]
  apply and_congr_left
  intro _
  simp only [List.mem_flatten, not_exists, not_and]
  constructor
  . intro h hb later hmem
    exact h later hmem hb
  . intro h later hmem hb
    exact h hb later hmem

theorem grep_iff_of_buf (hbuf : NEWLINE ∉ buf) (hreads : ∀ bytes ∈ reads, bytes ≠ [])
    (hnul : (0 : UInt8) ∉ buf ++ reads.flatten)
    : (∀ pattern, grep pattern buf reads = matching pattern (buf ++ reads.flatten)) ↔ NewlineFirst reads := by
  induction reads generalizing buf with
  | nil =>
    have hnil : ∀ pattern, grep pattern buf [] = matching pattern (buf ++ [].flatten) := by
      intro pattern
      rw [List.flatten_nil, List.append_nil, matching_of_notMem hbuf]
      rfl
    exact iff_of_true hnil List.Pairwise.nil
  | cons bytes reads ih =>
    rw [List.flatten_cons, ← List.append_assoc] at hnul
    have hnul' : (0 : UInt8) ∉ buf ++ bytes := fun h => hnul (List.mem_append_left _ h)
    have hnul'' : (0 : UInt8) ∉ carry (buf ++ bytes) ++ reads.flatten := by
      intro h
      rcases List.mem_append.mp h with h | h
      . exact hnul' (carry_subset _ h)
      . exact hnul (List.mem_append_right _ h)
    have hreads' : ∀ bytes ∈ reads, bytes ≠ [] := fun b hb => hreads b (List.mem_cons_of_mem _ hb)
    rw [newlineFirst_cons, List.flatten_cons, ← List.append_assoc]
    by_cases hnewline : NEWLINE ∈ bytes
    . -- the rest of the last line is carried over
      have hx : NEWLINE ∈ buf ++ bytes := List.mem_append_right _ hnewline
      rw [← ih (carry_notMem (buf ++ bytes)) hreads' hnul'', and_iff_right (fun h => absurd hnewline h)]
      apply forall_congr'
      intro pattern
      rw [grep_cons hnul', matching_append pattern (buf ++ bytes), List.append_cancel_left_eq]
      unfold carry
      rw [if_pos hx]
    . have hx : NEWLINE ∉ buf ++ bytes := by simp [hbuf, hnewline]
      have hcarry : carry (buf ++ bytes) = [] := if_neg hx
      by_cases hlater : NEWLINE ∈ reads.flatten
      . -- the bytes of a line are lost
        refine iff_of_false ?_ (fun h => h.1 hnewline hlater)
        intro hall
        have heq := congrArg (fun w => w.flatten.length) (hall [])
        rw [hcarry] at hnul''
        have hle := length_grep_le List.not_mem_nil hnul''
        have hpos : 0 < bytes.length := List.length_pos_of_ne_nil (hreads bytes List.mem_cons_self)
        rw [grep_cons hnul', matching_of_notMem hx, List.nil_append, hcarry, length_matching_append hx hlater,
          List.length_append] at heq
        rw [List.nil_append] at hle
        omega
      . have hfirst : NewlineFirst reads := by
          apply List.pairwise_of_forall_mem_list
          intro b hb c hc _ hmem
          exact hlater (List.mem_flatten_of_mem hc hmem)
        refine iff_of_true ?_ ⟨fun _ => hlater, hfirst⟩
        intro pattern
        rw [grep_cons hnul', grep_of_notMem (carry_notMem _) hlater hnul'', matching_of_notMem hx, matching_of_notMem]
        . rfl
        . simp [hbuf, hnewline, hlater]

theorem Reads.ne_nil (h : Reads buf reads) : ∀ bytes ∈ reads, bytes ≠ [] := by
  induction reads generalizing buf with
  | nil => nofun
  | cons bytes reads ih =>
    intro b hb
    rcases List.mem_cons.mp hb with rfl | hb
    . exact h.1
    . exact ih h.2.2 b hb

/-- `grep` writes the lines that match exactly if no read without a newline comes before a newline. -/
theorem grep_iff (reads : List (List UInt8)) (hreads : Reads [] reads) (hnul : (0 : UInt8) ∉ reads.flatten)
    : (∀ pattern, grep pattern [] reads = matching pattern reads.flatten) ↔ NewlineFirst reads :=
  grep_iff_of_buf List.not_mem_nil hreads.ne_nil hnul

-- The line "ab" comes in two pieces, but its second line is read with the newline of the first one.
theorem grep_iff_two
    : grep [98] [] [[97, 98, 10, 97], [98, 10]] = matching [98] [97, 98, 10, 97, 98, 10] := by
  have hreads : Reads [] [[97, 98, 10, 97], [98, 10]] := by
    have hcarry : carry [97, 98, 10, 97] = [97] := by
      show carry ([97, 98] ++ NEWLINE :: [97]) = [97]
      rw [carry, if_pos (by decide), rest_cons (by decide), rest_of_notMem (by decide)]
    refine ⟨by decide, by decide, by decide, ?_, trivial⟩
    rw [List.nil_append, hcarry]
    decide
  exact (grep_iff [[97, 98, 10, 97], [98, 10]] hreads (by decide)).mpr (by decide) [98]

/-- The first byte of the line arrives alone and is lost. -/
theorem grep_loses_byte
    : ¬ ∀ pattern reads, Reads [] reads → (0 : UInt8) ∉ reads.flatten →
        (∀ line ∈ reads.flatten.splitOn NEWLINE, line.length < 1023) →
        grep pattern [] reads = matching pattern reads.flatten := by
  intro h
  have hreads : Reads [] [[97], [98, 10]] := by
    have hcarry : carry [97] = [] := by decide
    refine ⟨by decide, by decide, by decide, ?_, trivial⟩
    rw [List.nil_append, hcarry]
    decide
  have hsplit : [[97], [98, 10]].flatten.splitOn NEWLINE = [[97, 98], []] := by
    simp [List.splitOn_cons_eq_if_modifyHead, NEWLINE]
  have hlost := h [97, 98] [[97], [98, 10]] hreads (by decide) (by rw [hsplit]; decide)
  rw [matching, lines, hsplit] at hlost
  revert hlost
  decide

end

end Xv6.Grep
