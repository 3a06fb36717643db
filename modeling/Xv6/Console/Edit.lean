import Mathlib.Data.List.Basic
import Xv6.Console.Impl

/-!
Line editing. The history beside the machine holds the edited input: the bytes that have been made available to readers,
and the line that can still be edited. The ring holds what has not been read of both, at indices that never wrap around.
-/

namespace Xv6.Console

/--
What has happened at the console: all bytes that have been made available and the line behind them, and on the other side
the bytes that reads have stored in order and the number of reads that have returned 0.
-/
structure History where
  avail : List UInt8
  line : List UInt8
  out : List UInt8
  zeros : Nat

namespace History

def init : History where
  avail := []
  line := []
  out := []
  zeros := 0

-- The free-running counterparts of `r` and `e`.
def taken (h : History) : Nat :=
  h.out.length + h.zeros

def edit (h : History) : Nat :=
  h.avail.length + h.line.length

-- A character becomes part of the line; the end of a line makes it available, and so does a full ring.
def insert (h : History) (c : UInt8) : History :=
  if c = NEWLINE ∨ c = CTRL_D ∨ h.edit + 1 = h.taken + INPUT_BUF then
    { h with avail := h.avail ++ (h.line ++ [c]), line := [] }
  else { h with line := h.line ++ [c] }

def typed (h : History) (c : UInt8) : History :=
  if c = CTRL_P then h
  else if c = CTRL_U then { h with line := [] }
  else if c = CTRL_H ∨ c = DEL then { h with line := h.line.dropLast }
  else if c ≠ 0 ∧ h.edit < h.taken + INPUT_BUF then h.insert (stored c)
  else h

end History

-- What a read has stored.
def Loc.got : Loc → List UInt8
  | .read _ _ got => got
  | .returned _ got => got
  | .failed got => got
  | _ => []

-- A read of at least one byte that returns 0.
def Loc.zero : Loc → Bool
  | .returned target got => target ≠ 0 ∧ got = []
  | _ => false

-- What a round of a read adds to the history, if it had `got` before and is in `l` afterwards.
def record (h : History) (got : List UInt8) (l : Loc) : History :=
  { h with out := h.out ++ l.got.drop got.length, zeros := h.zeros + if l.zero then 1 else 0 }

variable {ι : Type}

def observe (s : State ι) (e : Monitor.Event ι Call) (s' : State ι) (h : History) : History :=
  match e with
  | .step p =>
    if s.place p = .inside then
      match s.loc p with
      | .intr (c :: _) => h.typed c
      | .read _ _ got => record h got (s'.loc p)
      | _ => h
    else h
  | _ => h

/-- The ring against the history. -/
structure Holds (d : Input) (h : History) : Prop where
  r : d.r = .ofNat 32 h.taken
  w : d.w = .ofNat 32 h.avail.length
  e : d.e = .ofNat 32 h.edit
  le : h.taken ≤ h.avail.length
  room : h.edit ≤ h.taken + INPUT_BUF
  data : ∀ k b, h.taken ≤ k → (h.avail ++ h.line)[k]? = some b → d.buf (index (.ofNat 32 k)) = b
  line : ∀ b ∈ h.line, b ≠ NEWLINE

section

variable {d : Input} {h : History} {l : List UInt8} {b c : UInt8} {m n fuel : Nat}

-- Indices that are close to each other are equal if they are equal modulo `2^32`.
theorem ofNat_inj (hle : m ≤ n) (hlt : n < m + 2 ^ 32) (heq : BitVec.ofNat 32 n = BitVec.ofNat 32 m) : n = m := by
  rw [← BitVec.toNat_inj, BitVec.toNat_ofNat, BitVec.toNat_ofNat] at heq
  omega

theorem ofNat_sub (hle : m ≤ n) (hlt : n < m + 2 ^ 32) : (BitVec.ofNat 32 n - BitVec.ofNat 32 m).toNat = n - m := by
  rw [BitVec.toNat_sub, BitVec.toNat_ofNat, BitVec.toNat_ofNat]
  omega

theorem index_inj (hle : m ≤ n) (hlt : n < m + INPUT_BUF) (heq : index (.ofNat 32 n) = index (.ofNat 32 m))
    : n = m := by
  unfold index at heq
  rw [Fin.mk.injEq, BitVec.toNat_ofNat, BitVec.toNat_ofNat] at heq
  unfold INPUT_BUF at *
  omega

namespace Holds

theorem edit_lt (hd : Holds d h) : h.edit < h.taken + 2 ^ 32 := by
  have := hd.room
  unfold INPUT_BUF at this
  omega

theorem avail_le (h : History) : h.avail.length ≤ h.edit :=
  Nat.le_add_right _ _

theorem empty_iff (hd : Holds d h) : d.r = d.w ↔ h.taken = h.avail.length := by
  have := hd.le
  have := hd.edit_lt
  have := avail_le h
  rw [hd.r, hd.w]
  constructor
  . intro heq
    exact (ofNat_inj hd.le (by omega) heq.symm).symm
  . intro heq
    rw [heq]

theorem noLine_iff (hd : Holds d h) : d.e = d.w ↔ h.line = [] := by
  have := hd.le
  have := hd.edit_lt
  have := avail_le h
  rw [hd.e, hd.w]
  constructor
  . intro heq
    have : h.edit = h.avail.length := ofNat_inj (avail_le h) (by omega) heq
    unfold History.edit at this
    exact List.eq_nil_of_length_eq_zero (by omega)
  . intro heq
    unfold History.edit
    rw [heq]
    rfl

theorem count (hd : Holds d h) : (d.e - d.r).toNat = h.edit - h.taken := by
  have := hd.le
  have := avail_le h
  rw [hd.e, hd.r]
  exact ofNat_sub (by omega) hd.edit_lt

theorem lineCount (hd : Holds d h) : (d.e - d.w).toNat = h.line.length := by
  have := hd.le
  have := hd.edit_lt
  rw [hd.e, hd.w, ofNat_sub (avail_le h) (by omega)]
  exact Nat.add_sub_cancel_left _ _

/-- The last character of the line goes away. -/
theorem pop (hd : Holds d h) (hline : h.line = l ++ [b])
    : Holds { d with e := d.e - 1 } { h with line := l } ∧ d.buf (index (d.e - 1)) = b := by
  have hedit : h.edit = h.avail.length + l.length + 1 := by
    unfold History.edit
    rw [hline, List.length_append]
    rfl
  have he : d.e - 1 = .ofNat 32 (h.avail.length + l.length) := by
    rw [hd.e, hedit, BitVec.ofNat_add]
    exact BitVec.add_sub_cancel _ _
  refine ⟨⟨hd.r, hd.w, he, hd.le, ?_, ?_, ?_⟩, ?_⟩
  . have := hd.room
    show h.avail.length + l.length ≤ h.taken + INPUT_BUF
    omega
  . intro k b' hk hget
    apply hd.data k b' hk
    rw [hline, ← List.append_assoc, List.getElem?_append_left]
    . exact hget
    . exact (List.getElem?_eq_some_iff.mp hget).1
  . intro b' hb'
    apply hd.line
    rw [hline]
    exact List.mem_append_left _ hb'
  . rw [he]
    apply hd.data
    . have := hd.le
      omega
    . rw [hline, ← List.append_assoc, ← List.length_append]
      exact List.getElem?_concat_length

theorem killLoop (hd : Holds d h) (hfuel : h.line.length ≤ fuel) : Holds (killLoop fuel d) { h with line := [] } := by
  induction fuel generalizing d h with
  | zero =>
    have hnil : h.line = [] := List.eq_nil_of_length_eq_zero (by omega)
    rw [← hnil]
    exact hd
  | succ fuel ih =>
    unfold Console.killLoop
    rcases List.eq_nil_or_concat h.line with hnil | ⟨l, b, hline⟩
    . rw [if_neg (fun hne => hne.1 (hd.noLine_iff.mpr hnil)), ← hnil]
      exact hd
    . rw [List.concat_eq_append] at hline
      obtain ⟨hpop, hlast⟩ := hd.pop hline
      rw [if_pos]
      . apply ih (h := { h with line := l }) hpop
        rw [hline, List.length_append, List.length_singleton] at hfuel
        exact Nat.le_of_succ_le_succ hfuel
      . refine ⟨?_, ?_⟩
        . intro heq
          rw [hd.noLine_iff.mp heq] at hline
          simp at hline
        . rw [hlast]
          apply hd.line
          rw [hline]
          simp

theorem put_data (hd : Holds d h) (hroom : h.edit < h.taken + INPUT_BUF) {k : Nat} (hk : h.taken ≤ k)
    (hget : (h.avail ++ (h.line ++ [c]))[k]? = some b)
    : (put d c).buf (index (.ofNat 32 k)) = b := by
  have hlen : (h.avail ++ h.line).length = h.edit := List.length_append
  show Function.update d.buf (index d.e) c (index (.ofNat 32 k)) = b
  rw [← List.append_assoc] at hget
  have hlt := (List.getElem?_eq_some_iff.mp hget).1
  rw [List.length_append, hlen, List.length_singleton] at hlt
  rw [hd.e]
  by_cases hlast : k = h.edit
  . rw [hlast, ← hlen, List.getElem?_concat_length] at hget
    rw [hlast, Function.update_self]
    exact Option.some.inj hget
  . rw [Function.update_of_ne]
    . apply hd.data k b hk
      rwa [List.getElem?_append_left (by omega)] at hget
    . intro heq
      exact hlast (index_inj (by omega) (by omega) heq.symm).symm

theorem full_iff (hd : Holds d h) (hroom : h.edit < h.taken + INPUT_BUF)
    : (put d c).e = (put d c).r + BitVec.ofNat 32 INPUT_BUF ↔ h.edit + 1 = h.taken + INPUT_BUF := by
  show d.e + 1 = d.r + BitVec.ofNat 32 INPUT_BUF ↔ _
  have he : d.e + 1 = .ofNat 32 (h.edit + 1) := by
    rw [hd.e, BitVec.ofNat_add]
    rfl
  rw [he, hd.r, ← BitVec.ofNat_add]
  constructor
  . intro heq
    have := ofNat_inj (m := h.edit + 1) (n := h.taken + INPUT_BUF) (by omega) ?_ heq.symm
    . exact this.symm
    . have := hd.le
      have := avail_le h
      unfold INPUT_BUF
      omega
  . intro heq
    rw [heq]

theorem insert (hd : Holds d h) (hroom : h.edit < h.taken + INPUT_BUF)
    : Holds (if c = NEWLINE ∨ c = CTRL_D ∨ (put d c).e = (put d c).r + BitVec.ofNat 32 INPUT_BUF then
          { put d c with w := (put d c).e } else put d c)
        (h.insert c) := by
  have he : (put d c).e = .ofNat 32 (h.edit + 1) := by
    show d.e + 1 = _
    rw [hd.e, BitVec.ofNat_add]
    rfl
  have hle := hd.le
  unfold History.insert
  simp only [hd.full_iff hroom]
  split
  . have hlen : (h.avail ++ (h.line ++ [c])).length = h.edit + 1 := by
      simp [History.edit, Nat.add_assoc]
    refine ⟨hd.r, ?_, ?_, ?_, ?_, ?_, ?_⟩
    . show (put d c).e = _
      rw [hlen, he]
    . show (put d c).e = .ofNat 32 (_ + 0)
      rw [hlen, he]
    . show h.taken ≤ (h.avail ++ (h.line ++ [c])).length
      rw [hlen]
      have := avail_le h
      omega
    . show (h.avail ++ (h.line ++ [c])).length + 0 ≤ h.taken + INPUT_BUF
      omega
    . intro k b hk hget
      rw [List.append_nil] at hget
      exact hd.put_data hroom hk hget
    . nofun
  . next hopen =>
    have hedit : ({ h with line := h.line ++ [c] } : History).edit = h.edit + 1 := by
      simp [History.edit, Nat.add_assoc]
    refine ⟨hd.r, hd.w, ?_, hle, ?_, ?_, ?_⟩
    . rw [hedit, he]
    . rw [hedit]
      exact hroom
    . intro k b hk hget
      exact hd.put_data hroom hk hget
    . intro b hb
      rcases List.mem_append.mp hb with hb | hb
      . exact hd.line b hb
      . rw [List.mem_singleton.mp hb]
        exact fun heq => hopen (.inl heq)

theorem typed (hd : Holds d h) (c : UInt8) : Holds (typed d c).1 (h.typed c) := by
  unfold Console.typed History.typed
  split
  . exact hd
  . split
    . apply hd.killLoop
      exact Nat.le_of_eq hd.lineCount.symm
    . split
      . dsimp only
        split
        . next hne =>
          rcases List.eq_nil_or_concat h.line with hnil | ⟨l, b, hline⟩
          . exact absurd (hd.noLine_iff.mpr hnil) hne
          . rw [List.concat_eq_append] at hline
            rw [hline, List.dropLast_concat]
            exact (hd.pop hline).1
        . next heq =>
          rw [ne_eq, not_not, hd.noLine_iff] at heq
          rw [heq, List.dropLast_nil, ← heq]
          exact hd
      . have hroom : (c ≠ 0 ∧ (d.e - d.r).toNat < INPUT_BUF) ↔ (c ≠ 0 ∧ h.edit < h.taken + INPUT_BUF) := by
          have := hd.le
          have := avail_le h
          rw [hd.count]
          apply and_congr_right
          intro _
          omega
        rw [show (if c ≠ 0 ∧ h.edit < h.taken + INPUT_BUF then h.insert (stored c) else h) =
          if c ≠ 0 ∧ (d.e - d.r).toNat < INPUT_BUF then h.insert (stored c) else h from by simp only [hroom]]
        split
        . next hfits =>
          have := hd.insert (c := stored c) (hroom.mp hfits).2
          dsimp only
          split
          . next hcommit =>
            rw [if_pos hcommit] at this
            exact this
          . next hopen =>
            rw [if_neg hopen] at this
            exact this
        . exact hd

theorem front (hd : Holds d h) (hne : d.r ≠ d.w) : h.avail[h.taken]? = some (d.buf (index d.r)) := by
  have hlt : h.taken < h.avail.length := Nat.lt_of_le_of_ne hd.le (mt hd.empty_iff.mpr hne)
  rw [List.getElem?_eq_getElem hlt, hd.r]
  congr 1
  symm
  apply hd.data _ _ (Nat.le_refl _)
  rw [List.getElem?_append_left hlt, List.getElem?_eq_getElem hlt]

theorem advance (hd : Holds d h) (h' : History) (hne : d.r ≠ d.w) (havail : h'.avail = h.avail) (hline : h'.line = h.line)
    (htaken : h'.taken = h.taken + 1)
    : Holds { d with r := d.r + 1 } h' := by
  have hlt : h.taken < h.avail.length := Nat.lt_of_le_of_ne hd.le (mt hd.empty_iff.mpr hne)
  have hedit : h'.edit = h.edit := by
    unfold History.edit
    rw [havail, hline]
  refine ⟨?_, ?_, ?_, ?_, ?_, ?_, ?_⟩
  . show d.r + 1 = _
    rw [hd.r, htaken, BitVec.ofNat_add]
    rfl
  . rw [havail]
    exact hd.w
  . rw [hedit]
    exact hd.e
  . rw [havail, htaken]
    exact hlt
  . rw [hedit, htaken]
    have := hd.room
    omega
  . intro k b hk hget
    rw [havail, hline] at hget
    exact hd.data k b (by omega) hget
  . rw [hline]
    exact hd.line

end Holds

theorem typed_out (h : History) (c : UInt8)
    : (h.typed c).out = h.out ∧ (h.typed c).zeros = h.zeros ∧ h.avail <+: (h.typed c).avail := by
  unfold History.typed History.insert
  split
  . exact ⟨rfl, rfl, List.prefix_refl _⟩
  . split
    . exact ⟨rfl, rfl, List.prefix_refl _⟩
    . split
      . exact ⟨rfl, rfl, List.prefix_refl _⟩
      . split
        . split
          . exact ⟨rfl, rfl, List.prefix_append _ _⟩
          . exact ⟨rfl, rfl, List.prefix_refl _⟩
        . exact ⟨rfl, rfl, List.prefix_refl _⟩

end

-- What the reads have returned is what has been made available, up to `taken`.
structure Delivered (h : History) : Prop where
  out : h.out = (h.avail.take h.taken).filter (· ≠ CTRL_D)
  zeros : h.zeros = (h.avail.take h.taken).count CTRL_D

theorem Delivered.typed {h : History} (hh : Delivered h) (hle : h.taken ≤ h.avail.length) (c : UInt8)
    : Delivered (h.typed c) := by
  obtain ⟨hout, hzeros, l, havail⟩ := typed_out h c
  have htaken : (h.typed c).taken = h.taken := by
    unfold History.taken
    rw [hout, hzeros]
  have htake : (h.typed c).avail.take (h.typed c).taken = h.avail.take h.taken := by
    rw [htaken, ← havail, List.take_append_of_le_length hle]
  constructor
  . rw [hout, htake]
    exact hh.out
  . rw [hzeros, htake]
    exact hh.zeros

theorem Delivered.byte {h : History} {c : UInt8} (hh : Delivered h) (hc : h.avail[h.taken]? = some c)
    (hne : c ≠ CTRL_D)
    : Delivered { h with out := h.out ++ [c] } := by
  have htaken : ({ h with out := h.out ++ [c] } : History).taken = h.taken + 1 := by
    simp only [History.taken, List.length_append, List.length_singleton]
    omega
  constructor
  . rw [htaken]
    show h.out ++ [c] = _
    rw [List.take_add_one, hc, List.filter_append, ← hh.out]
    simp [hne]
  . rw [htaken]
    show h.zeros = (h.avail.take (h.taken + 1)).count CTRL_D
    rw [List.take_add_one, hc, List.count_append, ← hh.zeros]
    simp [hne]

theorem Delivered.zero {h : History} (hh : Delivered h) (hc : h.avail[h.taken]? = some CTRL_D)
    : Delivered { h with zeros := h.zeros + 1 } := by
  have htaken : ({ h with zeros := h.zeros + 1 } : History).taken = h.taken + 1 := rfl
  constructor
  . rw [htaken]
    show h.out = _
    rw [List.take_add_one, hc, List.filter_append, ← hh.out]
    simp
  . rw [htaken]
    show h.zeros + 1 = (h.avail.take (h.taken + 1)).count CTRL_D
    rw [List.take_add_one, hc, List.count_append, ← hh.zeros]
    simp

end Xv6.Console
