import Xv6.Vm.Copyout
import Xv6.Vm.Lemmas.Room

/-!
The argument stack of `exec`. Every piece is copied to just below the last one. A piece that is too long reaches into the
guard page, or up into the kernel if the address has wrapped around, and neither is the user's.
-/

namespace Xv6.Vm

section

variable {d : PgDir} {m m1 m' : Mem} {a lo sp : Nat} {bs s : List UInt8}

def PgDir.word (d : PgDir) (m : Mem) (a : Nat) : Nat :=
  le32 [d.byte m a, d.byte m (a + 1), d.byte m (a + 2), d.byte m (a + 3)] 0

-- The string `s` stands at the address `a`, with its terminating zero.
def PgDir.Cstr (d : PgDir) (m : Mem) (a : Nat) (s : List UInt8) : Prop :=
  (∀ j (h : j < s.length), d.byte m (a + j) = s[j]) ∧ d.byte m (a + s.length) = 0

theorem length_flatMap_bytes32 (l : List Nat) : (l.flatMap bytes32).length = 4 * l.length := by
  induction l with
  | nil => rfl
  | cons n l ih =>
    rw [List.flatMap_cons, List.length_append, ih, List.length_cons, Nat.mul_add, Nat.add_comm]
    rfl

theorem getElem?_flatMap_bytes32 {i k : Nat} (l : List Nat) (hi : i < l.length) (hk : k < 4)
    : (l.flatMap bytes32)[4 * i + k]? = (bytes32 l[i])[k]? := by
  induction l generalizing i with
  | nil => cases hi
  | cons n l ih =>
    have hlen : (bytes32 n).length = 4 := rfl
    rw [List.flatMap_cons]
    cases i with
    | zero =>
      rw [List.getElem?_append_left (by omega), Nat.mul_zero, Nat.zero_add]
      rfl
    | succ i =>
      rw [List.getElem?_append_right (by omega), hlen, show 4 * (i + 1) + k - 4 = 4 * i + k by omega,
        ih (Nat.lt_of_succ_lt_succ hi)]
      rfl

theorem le32_bytes32 {n : Nat} (hn : n < 2 ^ 32) : le32 (bytes32 n) 0 = n := by
  unfold le32 le16 bytes32
  simp only [List.getD_cons_zero, List.getD_cons_succ, UInt8.toNat_ofNat']
  omega

theorem Copied.word {va i : Nat} {l : List Nat} (h : Copied d va (l.flatMap bytes32) m m') (hi : i < l.length)
    (hlt : l[i] < 2 ^ 32)
    : d.word m' (va + 4 * i) = l[i] := by
  have hbyte : ∀ k (hk : k < 4), d.byte m' (va + 4 * i + k) = (bytes32 l[i])[k] := by
    intro k hk
    have hin : 4 * i + k < (l.flatMap bytes32).length := by
      rw [length_flatMap_bytes32]
      omega
    have hget := getElem?_flatMap_bytes32 l hi hk
    rw [List.getElem?_eq_getElem hin, List.getElem?_eq_getElem (show k < (bytes32 l[i]).length from hk)] at hget
    rw [Nat.add_assoc, h.byte _ hin]
    exact Option.some.inj hget
  unfold PgDir.word
  rw [hbyte 1 (by decide), hbyte 2 (by decide), hbyte 3 (by decide), ← Nat.add_zero (va + 4 * i), hbyte 0 (by decide)]
  exact le32_bytes32 hlt

theorem Copied.cstr {va : Nat} (h : Copied d va (s ++ [0]) m m') : d.Cstr m' va s := by
  constructor
  . intro j hj
    rw [h.byte j (by rw [List.length_append]; omega), List.getElem_append_left hj]
  . rw [h.byte s.length (by simp), List.getElem_append_right (Nat.le_refl _)]
    simp

/-!
The stack page, with its guard page below it.
-/

structure StackPage (d : PgDir) (lo : Nat) : Prop where
  aligned : lo % PGSIZE = 0
  low : PGSIZE ≤ lo
  high : lo + PGSIZE ≤ KERNBASE
  guard : ¬ d.UserPage (lo / PGSIZE - 1)

-- Nothing has changed except for the bytes of the stack page below `sp`.
structure OnlyBelow (d : PgDir) (lo sp : Nat) (m m' : Mem) : Prop where
  byte : ∀ a, sp ≤ a → d.UserPage (a / PGSIZE) → d.byte m' a = d.byte m a
  data : ∀ p ≠ (d.pte (lo / PGSIZE)).addr, m'.data p = m.data p

theorem OnlyBelow.refl (d : PgDir) (lo sp : Nat) (m : Mem) : OnlyBelow d lo sp m m :=
  ⟨fun _ _ _ => rfl, fun _ _ => rfl⟩

theorem OnlyBelow.trans {sp' : Nat} (hle : sp' ≤ sp) (h : OnlyBelow d lo sp m m1) (h' : OnlyBelow d lo sp' m1 m')
    : OnlyBelow d lo sp m m' where
  byte a ha huser := by rw [h'.byte a (Nat.le_trans hle ha) huser, h.byte a ha huser]
  data p hp := by rw [h'.data p hp, h.data p hp]

theorem Copied.below {va : Nat} (hd : d.Wf) (hnodup : d.frames.Nodup) (hb : StackPage d lo)
    (h : Copied d va bs m m') (huser : ∀ i < bs.length, d.UserPage ((va + i) / PGSIZE)) (hlo : lo ≤ va)
    (hsp : va + bs.length ≤ sp) (hhi : sp ≤ lo + PGSIZE)
    : OnlyBelow d lo sp m m' where
  byte a ha husera := by
    apply h.other
    intro i hi haddr hoff
    have := PgDir.place_inj hd hnodup (huser i hi) husera haddr hoff
    omega
  data p hp := by
    funext o
    apply h.other
    intro i hi haddr
    have haligned := hb.aligned
    rw [show (va + i) / PGSIZE = lo / PGSIZE by unfold PGSIZE at *; omega] at haddr
    exact absurd haddr.symm hp

/-!
One piece. Its place is as far down as its length says, rounded down to a word.
-/

theorem push_copied (hd : d.Wf) (hnodup : d.frames.Nodup) (hb : StackPage d lo) (hlo : lo ≤ sp)
    (hhi : sp ≤ lo + PGSIZE) (hbs : 0 < bs.length)
    (h : copyout d (uint (sp + 2 ^ 32 - bs.length) / 4 * 4) bs m = .ok (true, m'))
    : ∃ va, uint (sp + 2 ^ 32 - bs.length) / 4 * 4 = va ∧ lo ≤ va ∧ va + bs.length ≤ sp ∧
        (∀ i < bs.length, d.UserPage ((va + i) / PGSIZE)) ∧ Copied d va bs m m' := by
  have hcases := copyout_cases (uint (sp + 2 ^ 32 - bs.length) / 4 * 4) bs m hd hnodup
  rw [h] at hcases
  cases hcases with
  | done _ huser hcopied =>
    generalize hva : uint (sp + 2 ^ 32 - bs.length) / 4 * 4 = va at huser hcopied
    have hlast := (huser (bs.length - 1) (by omega)).lt hd
    have hhigh := hb.high
    have hshort : bs.length ≤ sp := by
      by_contra hwrap
      unfold UPAGES uint KERNBASE PGSIZE at *
      omega
    have hdown : va = (sp - bs.length) / 4 * 4 := by
      rw [← hva, show sp + 2 ^ 32 - bs.length = sp - bs.length + 2 ^ 32 by omega]
      unfold uint KERNBASE PGSIZE at *
      omega
    refine ⟨va, rfl, ?_, by omega, huser, hcopied⟩
    -- otherwise the piece has a byte in the last word of the guard page
    by_contra hlow
    apply hb.guard
    have haligned := hb.aligned
    have hpage := hb.low
    have hguard : (va + (min (lo - 1) (va + bs.length - 1) - va)) / PGSIZE = lo / PGSIZE - 1 := by
      unfold PGSIZE at *
      omega
    rw [← hguard]
    apply huser
    omega

/-!
The strings.
-/

-- The strings `argv` stand one below the other, from `sp` down to the last argument.
inductive Strings (d : PgDir) (m : Mem) : Nat → List (List UInt8) → List Nat → Nat → Prop where
  | nil (sp : Nat) : Strings d m sp [] [] sp
  | cons {sp va last : Nat} {arg : List UInt8} {argv : List (List UInt8)} {ptrs : List Nat} (haligned : va % 4 = 0)
      (hfit : va + arg.length + 1 ≤ sp) (hcstr : d.Cstr m va arg) (hrest : Strings d m va argv ptrs last)
      : Strings d m sp (arg :: argv) (va :: ptrs) last

variable {argv : List (List UInt8)} {ptrs : List Nat} {last : Nat}

theorem Strings.length (h : Strings d m sp argv ptrs last) : ptrs.length = argv.length := by
  induction h with
  | nil sp => rfl
  | cons haligned hfit hcstr hrest ih => rw [List.length_cons, List.length_cons, ih]

theorem Strings.le (h : Strings d m sp argv ptrs last) : last ≤ sp := by
  induction h with
  | nil sp => exact Nat.le_refl sp
  | cons haligned hfit hcstr hrest ih => omega

theorem Strings.get {i : Nat} (h : Strings d m sp argv ptrs last) (hi : i < argv.length) (hp : i < ptrs.length)
    : ptrs[i] % 4 = 0 ∧ last ≤ ptrs[i] ∧ ptrs[i] + argv[i].length + 1 ≤ sp ∧ d.Cstr m ptrs[i] argv[i] := by
  induction h generalizing i with
  | nil sp => cases hi
  | cons haligned hfit hcstr hrest ih =>
    cases i with
    | zero => exact ⟨haligned, hrest.le, hfit, hcstr⟩
    | succ i =>
      obtain ⟨haligned', hlast, hfit', hcstr'⟩ := ih (Nat.lt_of_succ_lt_succ hi) (Nat.lt_of_succ_lt_succ hp)
      simp only [List.getElem_cons_succ]
      exact ⟨haligned', hlast, by omega, hcstr'⟩

theorem Strings.disjoint {i j : Nat} (h : Strings d m sp argv ptrs last) (hij : i < j) (hj : j < argv.length)
    (hp : j < ptrs.length)
    : ptrs[j] + argv[j].length + 1 ≤ ptrs[i] := by
  induction h generalizing i j with
  | nil sp => cases hj
  | cons haligned hfit hcstr hrest ih =>
    cases j with
    | zero => cases hij
    | succ j =>
      cases i with
      | zero => exact (hrest.get (Nat.lt_of_succ_lt_succ hj) (Nat.lt_of_succ_lt_succ hp)).2.2.1
      | succ i => exact ih (Nat.lt_of_succ_lt_succ hij) (Nat.lt_of_succ_lt_succ hj) (Nat.lt_of_succ_lt_succ hp)

theorem PgDir.Cstr.keep (h : d.Cstr m a s) (hb : OnlyBelow d lo sp m m') (ha : sp ≤ a)
    (huser : ∀ i < s.length + 1, d.UserPage ((a + i) / PGSIZE))
    : d.Cstr m' a s := by
  constructor
  . intro j hj
    rw [hb.byte _ (by omega) (huser j (by omega)), h.1 j hj]
  . rw [hb.byte _ (by omega) (huser _ (Nat.lt_succ_self _)), h.2]

theorem pushArgs_strings {argc sp' : Nat} {ustack ustack' : List Nat} (hd : d.Wf) (hnodup : d.frames.Nodup)
    (hb : StackPage d lo) (hlo : lo ≤ sp) (hhi : sp ≤ lo + PGSIZE)
    (h : pushArgs d argv argc sp ustack m = .ok (some (sp', ustack'), m'))
    : ∃ ptrs, ustack' = ustack ++ ptrs ∧ Strings d m' sp argv ptrs sp' ∧ lo ≤ sp' ∧ OnlyBelow d lo sp m m' := by
  induction argv generalizing argc sp ustack m with
  | nil =>
    simp only [pushArgs, Except.ok.injEq, Prod.mk.injEq, Option.some.injEq] at h
    obtain ⟨⟨rfl, rfl⟩, rfl⟩ := h
    exact ⟨[], (List.append_nil _).symm, .nil sp, hlo, .refl d lo sp m⟩
  | cons arg argv ih =>
    unfold pushArgs at h
    split at h
    . simp at h
    . dsimp only at h
      have hlen : (arg ++ [0]).length = arg.length + 1 := by simp
      split at h
      . simp at h
      . simp at h
      . next m1 hcopy =>
        rw [← hlen] at hcopy h
        obtain ⟨va, hva, hlow, hfit, huser, hcopied⟩ := push_copied hd hnodup hb hlo hhi (by omega) hcopy
        rw [hva] at h
        obtain ⟨ptrs, hptrs, hstrings, hlo', hbelow⟩ := ih hlow (by omega) h
        have hcstr := hcopied.cstr.keep hbelow (Nat.le_refl va) (by rwa [hlen] at huser)
        refine ⟨va :: ptrs, ?_, ?_, hlo', ?_⟩
        . rw [hptrs, List.append_assoc]
          rfl
        . rw [hlen] at hfit
          refine .cons ?_ hfit hcstr hstrings
          omega
        . exact (hcopied.below hd hnodup hb huser hlow hfit hhi).trans (by omega) hbelow

theorem Strings.aligned (h : Strings d m sp argv ptrs last) (hsp : sp % 4 = 0) : last % 4 = 0 := by
  induction h with
  | nil sp => exact hsp
  | cons haligned hfit hcstr hrest ih => exact ih haligned

theorem Strings.keep (h : Strings d m sp argv ptrs last) (hb : OnlyBelow d lo last m m')
    (huser : ∀ a, last ≤ a → a < sp → d.UserPage (a / PGSIZE))
    : Strings d m' sp argv ptrs last := by
  induction h with
  | nil sp => exact .nil sp
  | cons haligned hfit hcstr hrest ih =>
    have hle := hrest.le
    refine .cons haligned hfit (hcstr.keep hb hle fun i hi => huser _ (by omega) (by omega)) (ih hb ?_)
    intro a ha hlt
    exact huser a ha (by omega)

/-!
How much room is enough.
-/

def argsSize (argv : List (List UInt8)) : Nat :=
  (argv.map fun arg => arg.length + 4).sum

theorem copyout_page (a : Nat) (bs : List UInt8) (m : Mem) (hd : d.Wf) (hnodup : d.frames.Nodup)
    (haligned : lo % PGSIZE = 0) (hpage : d.UserPage (lo / PGSIZE)) (hlo : lo ≤ a) (hhi : a + bs.length ≤ lo + PGSIZE)
    : ∃ m', copyout d a bs m = .ok (true, m') := by
  obtain ⟨m', hcopy, -⟩ := copyout_eq_ok a bs m hd hnodup (by
    intro i hi
    rwa [show (a + i) / PGSIZE = lo / PGSIZE by unfold PGSIZE at *; omega])
  exact ⟨m', hcopy⟩

theorem pushArgs_eq_ok (argv : List (List UInt8)) (argc : Nat) (ustack : List Nat) (m : Mem) (hd : d.Wf) (hnodup : d.frames.Nodup)
    (haligned : lo % PGSIZE = 0) (hpage : d.UserPage (lo / PGSIZE)) (hroom : lo + argsSize argv ≤ sp)
    (hhi : sp ≤ lo + PGSIZE) (hargc : argc + argv.length ≤ MAXARG)
    : ∃ sp' args m', pushArgs d argv argc sp ustack m = .ok (some (sp', args), m') ∧
        args.length = ustack.length + argv.length ∧ sp ≤ sp' + argsSize argv ∧ sp' ≤ sp := by
  induction argv generalizing argc sp ustack m with
  | nil => exact ⟨sp, ustack, m, rfl, rfl, Nat.le_refl sp, Nat.le_refl sp⟩
  | cons arg argv ih =>
    have hsize : argsSize (arg :: argv) = arg.length + 4 + argsSize argv := List.sum_cons
    have htop := hpage.lt hd
    rw [List.length_cons] at hargc
    obtain ⟨va, hva, hlow, hhigh⟩ : ∃ va, uint (sp + 2 ^ 32 - (arg.length + 1)) / 4 * 4 = va ∧
        sp ≤ va + (arg.length + 4) ∧ va + (arg.length + 1) ≤ sp := by
      refine ⟨_, rfl, ?_⟩
      unfold uint UPAGES KERNBASE PGSIZE at *
      omega
    obtain ⟨m1, hcopy⟩ := copyout_page va (arg ++ [0]) m hd hnodup haligned hpage (by omega) (by
      rw [List.length_append, List.length_singleton]
      omega)
    have hroom' : lo + argsSize argv ≤ va := by omega
    obtain ⟨sp', args, m', hpush, hlen, hlow', hhigh'⟩ := ih (argc + 1) (ustack ++ [va]) m1 hroom' (by omega) (by omega)
    refine ⟨sp', args, m', ?_, ?_, by omega, by omega⟩
    . unfold pushArgs
      rw [if_neg (by omega)]
      dsimp only
      rw [hva, hcopy]
      exact hpush
    . rw [hlen, List.length_append, List.length_singleton, List.length_cons]
      omega

/-!
The whole stack.
-/

-- The `i`-th pointer of the array above the stack pointer.
def argPtr (d : PgDir) (m : Mem) (sp i : Nat) : Nat :=
  d.word m (sp + 12 + 4 * i)

structure ArgStack (d : PgDir) (sz sp : Nat) (argv : List (List UInt8)) (m : Mem) : Prop where
  accessible : d.UserPage (sz / PGSIZE - 1)
  guard : ¬ d.UserPage (sz / PGSIZE - 2)
  aligned : sz % PGSIZE = 0 ∧ 2 * PGSIZE ≤ sz
  ret : d.word m sp = 0xffffffff
  argc : d.word m (sp + 4) = argv.length
  argvp : d.word m (sp + 8) = sp + 12
  null : argPtr d m sp argv.length = 0
  string : ∀ i (h : i < argv.length), argPtr d m sp i % 4 = 0 ∧ d.Cstr m (argPtr d m sp i) argv[i]
  low : sz - PGSIZE ≤ sp
  high : sp + 4 * (argv.length + 4) ≤ sz
  inside : ∀ i (h : i < argv.length),
    sp + 4 * (argv.length + 4) ≤ argPtr d m sp i ∧ argPtr d m sp i + argv[i].length + 1 ≤ sz
  disjoint : ∀ i j (_ : i < j) (h : j < argv.length), argPtr d m sp j + argv[j].length + 1 ≤ argPtr d m sp i

theorem Strings.argStack {sz sp' : Nat} (hd : d.Wf) (hnodup : d.frames.Nodup) (hb : StackPage d lo)
    (hsz : sz = lo + PGSIZE) (hlo : lo ≤ sp) (h : Strings d m sz argv ptrs sp)
    (hsp' : uint (sp + 2 ^ 32 - (3 + ptrs.length + 1) * 4) = sp')
    (hcopy : copyout d sp' (([0xffffffff, ptrs.length, uint (sp + 2 ^ 32 - (ptrs.length + 1) * 4)] ++ ptrs ++ [0]).flatMap
      bytes32) m = .ok (true, m'))
    : ArgStack d sz sp' argv m' ∧ OnlyBelow d lo sp m m' := by
  generalize hwords : [0xffffffff, ptrs.length, uint (sp + 2 ^ 32 - (ptrs.length + 1) * 4)] ++ ptrs ++ [0] = words
    at hcopy
  have hlen : words.length = ptrs.length + 4 := by
    rw [← hwords]
    simp
  have hle := h.le
  have haligned := hb.aligned
  have hlow := hb.low
  have hhigh := hb.high
  have hword : sp % 4 = 0 := h.aligned (by unfold PGSIZE at *; omega)
  have hround : uint (sp + 2 ^ 32 - (words.flatMap bytes32).length) / 4 * 4 = sp' := by
    rw [length_flatMap_bytes32, hlen, ← hsp']
    unfold uint
    omega
  rw [← hround] at hcopy
  obtain ⟨va, hva, hlo', hfit, huser, hcopied⟩ := push_copied hd hnodup hb hlo (by omega)
    (by rw [length_flatMap_bytes32]; omega) hcopy
  rw [hround] at hva
  subst hva
  have hbelow := hcopied.below hd hnodup hb huser hlo' hfit (by omega)
  rw [length_flatMap_bytes32, hlen] at hfit huser
  have hpage : d.UserPage (lo / PGSIZE) := by
    have := huser 0 (by omega)
    rwa [show (sp' + 0) / PGSIZE = lo / PGSIZE by unfold PGSIZE at *; omega] at this
  have hstrings : Strings d m' sz argv ptrs sp := by
    apply h.keep hbelow
    intro a ha hlt
    rwa [show a / PGSIZE = lo / PGSIZE by unfold PGSIZE at *; omega]
  have hptrs := h.length
  have hbottom : sp' + 4 * (argv.length + 4) = sp := by
    unfold uint KERNBASE PGSIZE at *
    omega
  have hargv : uint (sp + 2 ^ 32 - (ptrs.length + 1) * 4) = sp' + 12 := by
    unfold uint KERNBASE PGSIZE at *
    omega
  rw [hargv] at hwords
  have hread : ∀ i n (hi : words[i]? = some n) (_ : n < 2 ^ 32), d.word m' (sp' + 4 * i) = n := by
    intro i n hi hn
    obtain ⟨hlt, rfl⟩ := List.getElem?_eq_some_iff.mp hi
    exact hcopied.word hlt hn
  have hptr : ∀ i (hi : i < argv.length), argPtr d m' sp' i = ptrs[i] := by
    intro i hi
    have hsz' := (h.get hi (by omega)).2.2.1
    unfold argPtr
    rw [show sp' + 12 + 4 * i = sp' + 4 * (i + 3) by omega]
    refine hread (i + 3) _ ?_ ?_
    . rw [← hwords]
      show (ptrs ++ [0])[i]? = some ptrs[i]
      rw [List.getElem?_append_left (by omega)]
      exact List.getElem?_eq_getElem _
    . unfold KERNBASE PGSIZE at *
      omega
  refine ⟨?_, hbelow⟩
  constructor
  case accessible =>
    rwa [show sz / PGSIZE - 1 = lo / PGSIZE by unfold PGSIZE at *; omega]
  case guard =>
    rw [show sz / PGSIZE - 2 = lo / PGSIZE - 1 by unfold PGSIZE at *; omega]
    exact hb.guard
  case aligned =>
    unfold PGSIZE at *
    omega
  case ret => exact hread 0 _ (by rw [← hwords]; rfl) (by decide)
  case argc => exact hread 1 _ (by rw [← hwords, ← hptrs]; rfl) (by unfold KERNBASE PGSIZE at *; omega)
  case argvp => exact hread 2 _ (by rw [← hwords]; rfl) (by unfold KERNBASE PGSIZE at *; omega)
  case null =>
    unfold argPtr
    rw [show sp' + 12 + 4 * argv.length = sp' + 4 * (argv.length + 3) by omega]
    refine hread _ _ ?_ (by decide)
    rw [← hwords, ← hptrs]
    show (ptrs ++ [0])[ptrs.length]? = some 0
    exact List.getElem?_concat_length
  case string =>
    intro i hi
    obtain ⟨hal, -, -, hcstr⟩ := hstrings.get hi (by omega)
    rw [hptr i hi]
    exact ⟨hal, hcstr⟩
  case low => omega
  case high => omega
  case inside =>
    intro i hi
    obtain ⟨-, hlast, hsz', -⟩ := hstrings.get hi (by omega)
    rw [hptr i hi]
    omega
  case disjoint =>
    intro i j hij hj
    rw [hptr i (by omega), hptr j hj]
    exact hstrings.disjoint hij hj (by omega)

theorem ArgStack.congr {sz : Nat} (h : ArgStack d sz sp argv m)
    (hdata : m'.data (d.pte (sz / PGSIZE - 1)).addr = m.data (d.pte (sz / PGSIZE - 1)).addr)
    : ArgStack d sz sp argv m' := by
  obtain ⟨haligned, hsz⟩ := h.aligned
  have hlow := h.low
  have hhigh := h.high
  have hbyte : ∀ a, sp ≤ a → a < sz → d.byte m' a = d.byte m a := by
    intro a hle hlt
    unfold PgDir.byte
    rw [show a / PGSIZE = sz / PGSIZE - 1 by unfold PGSIZE at *; omega, hdata]
  have hword : ∀ a, sp ≤ a → a + 4 ≤ sz → d.word m' a = d.word m a := by
    intro a hle hlt
    unfold PgDir.word
    rw [hbyte a hle (by omega), hbyte (a + 1) (by omega) (by omega), hbyte (a + 2) (by omega) (by omega),
      hbyte (a + 3) (by omega) (by omega)]
  have hptr : ∀ i ≤ argv.length, argPtr d m' sp i = argPtr d m sp i := by
    intro i hi
    exact hword _ (by omega) (by omega)
  constructor
  case accessible => exact h.accessible
  case guard => exact h.guard
  case aligned => exact h.aligned
  case ret => rw [hword sp (Nat.le_refl sp) (by omega), h.ret]
  case argc => rw [hword _ (by omega) (by omega), h.argc]
  case argvp => rw [hword _ (by omega) (by omega), h.argvp]
  case null => rw [hptr _ (Nat.le_refl _), h.null]
  case string =>
    intro i hi
    obtain ⟨hle, hlt⟩ := h.inside i hi
    obtain ⟨hal, hchars, hzero⟩ := h.string i hi
    rw [hptr i (Nat.le_of_lt hi)]
    refine ⟨hal, ?_, ?_⟩
    . intro j hj
      rw [hbyte _ (by omega) (by omega), hchars j hj]
    . rw [hbyte _ (by omega) (by omega), hzero]
  case low => exact hlow
  case high => exact hhigh
  case inside =>
    intro i hi
    rw [hptr i (Nat.le_of_lt hi)]
    exact h.inside i hi
  case disjoint =>
    intro i j hij hj
    rw [hptr i (by omega), hptr j (Nat.le_of_lt hj)]
    exact h.disjoint i j hij hj

variable {L : Layout} {d' : PgDir} {image : Image} {sz entry : Nat}

theorem setupStack_eq_some (h : setupStack L d sz entry argv m = .ok (some image, d', m'))
    : ∃ d1 m1 m2 sp args, allocuvm L d (pgroundup sz) (uint (pgroundup sz + 2 * PGSIZE)) m = .ok (image.sz, d1, m1) ∧
        image.sz ≠ 0 ∧ clearpteu d1 (uint (image.sz + 2 ^ 32 - 2 * PGSIZE)) m1 = .ok d' ∧
        pushArgs d' argv 0 image.sz [] m1 = .ok (some (sp, args), m2) ∧
        uint (sp + 2 ^ 32 - (3 + args.length + 1) * 4) = image.sp ∧
        copyout d' image.sp (([0xffffffff, args.length, uint (sp + 2 ^ 32 - (args.length + 1) * 4)] ++ args ++ [0]).flatMap
          bytes32) m2 = .ok (true, m') ∧
        image.pgdir = d' := by
  unfold setupStack at h
  dsimp only at h
  split at h
  . simp at h
  . next r d1 m1 halloc =>
    split at h
    . simp at h
    . next hr =>
      split at h
      . simp at h
      . next d2 hclear =>
        split at h
        . simp at h
        . simp at h
        . next sp args m2 hpush =>
          split at h
          . simp at h
          . simp at h
          . next m3 hcopy =>
            simp only [Except.ok.injEq, Prod.mk.injEq, Option.some.injEq] at h
            obtain ⟨rfl, rfl, rfl⟩ := h
            exact ⟨d1, m1, m2, sp, args, halloc, hr, hclear, hpush, rfl, hcopy, rfl⟩

theorem setupStack_argStack (hd : d.Wf) (hs : m.Sound (Valid L) d.frames) (hsz : sz < KERNBASE)
    (h : setupStack L d sz entry argv m = .ok (some image, d', m'))
    : ArgStack image.pgdir image.sz image.sp argv m' ∧
        ∃ d1 m1, allocuvm L d (pgroundup sz) (uint (pgroundup sz + 2 * PGSIZE)) m = .ok (image.sz, d1, m1) ∧
          clearpteu d1 (uint (image.sz + 2 ^ 32 - 2 * PGSIZE)) m1 = .ok image.pgdir ∧
          ∀ p ≠ (image.pgdir.pte (image.sz / PGSIZE - 1)).addr, m'.data p = m1.data p := by
  obtain ⟨d1, m1, m2, sp, args, halloc, hr, hclear, hpush, hsp, hcopy, rfl⟩ := setupStack_eq_some h
  obtain ⟨htrades, hcases⟩ := allocuvm_trades hd halloc
  obtain ⟨hd', htrades'⟩ := clearpteu_trades (m := m1) htrades.wf hclear
  have hs' := (htrades.trans htrades').xfer.sound hs
  have hnodup := (Multiset.nodup_add.mp hs'.nodup).1
  have hround := pgroundup_eq_npages (Nat.le_of_lt hsz)
  have hle := npages_le_upages (Nat.le_of_lt hsz)
  have hwrap : uint (npages sz * PGSIZE + 2 * PGSIZE) = npages sz * PGSIZE + 2 * PGSIZE := by
    apply uint_eq_self
    unfold UPAGES KERNBASE PGSIZE at *
    omega
  rw [hround, hwrap] at hcases
  obtain ⟨hsz', hhigh⟩ : image.sz = npages sz * PGSIZE + 2 * PGSIZE ∧ image.sz < KERNBASE := by
    rcases hcases with ⟨hzero, -⟩ | ⟨-, hlt, -⟩ | ⟨heq, -, hlt, -⟩
    . exact absurd hzero hr
    . omega
    . exact ⟨heq, heq ▸ hlt⟩
  have hb : StackPage image.pgdir (image.sz - PGSIZE) := by
    constructor
    case aligned =>
      unfold PGSIZE at *
      omega
    case low => omega
    case high => omega
    case guard =>
      have hpage : uint (image.sz + 2 ^ 32 - 2 * PGSIZE) / PGSIZE = (image.sz - PGSIZE) / PGSIZE - 1 := by
        unfold uint KERNBASE PGSIZE at *
        omega
      rw [hd', hpage]
      rintro ⟨-, huser⟩
      rw [PgDir.setPte_pte, if_pos rfl] at huser
      cases huser
  obtain ⟨ptrs, hargs, hstrings, hlo, hbelow⟩ := pushArgs_strings htrades'.wf hnodup hb
    (by omega) (by omega) hpush
  rw [List.nil_append] at hargs
  subst hargs
  obtain ⟨hstack, hbelow'⟩ := hstrings.argStack htrades'.wf hnodup hb (by omega) hlo hsp hcopy
  refine ⟨hstack, d1, m1, halloc, hclear, ?_⟩
  intro p hp
  rw [show image.sz / PGSIZE - 1 = (image.sz - PGSIZE) / PGSIZE by unfold PGSIZE at *; omega] at hp
  rw [hbelow'.data p hp, hbelow.data p hp]

theorem exec_eq_some {ip : Option Inode} {old : PgDir} (h : exec L ip argv old m = .ok (some image, m'))
    : ∃ f elf d0 d1 m0 m1, ip = some f ∧ readElfhdr f = some elf ∧ setupkvm L m = .ok (some d0, m0) ∧
        loadImage L f elf argv d0 m0 = .ok (some image, d1, m1) ∧ freevm L old m1 = .ok m' := by
  unfold exec at h
  split at h
  . simp at h
  . next f =>
    split at h
    . simp at h
    . next elf helf =>
      split at h
      . simp at h
      . split at h
        . simp at h
        . simp at h
        . next d0 m0 hkvm =>
          split at h
          . simp at h
          . split at h <;> simp at h
          . next image' d1 m1 himage =>
            split at h
            . simp at h
            . next m2 hfreevm =>
              simp only [Except.ok.injEq, Prod.mk.injEq, Option.some.injEq] at h
              obtain ⟨rfl, rfl⟩ := h
              exact ⟨f, elf, d0, d1, m0, m1, rfl, helf, hkvm, himage, hfreevm⟩

theorem loadImage_eq_some {f : Inode} {elf : Elfhdr} (h : loadImage L f elf argv d m = .ok (some image, d', m'))
    : ∃ sz d1 m1, loadSegments L f elf.phnum elf.phoff d 0 m = .ok (true, sz, d1, m1) ∧
        setupStack L d1 sz elf.entry argv m1 = .ok (some image, d', m') := by
  unfold loadImage at h
  split at h
  . simp at h
  . simp at h
  . next sz d1 m1 hload => exact ⟨sz, d1, m1, hload, h⟩

/--
The memory and the directory that `exec` has come to when it starts to copy the arguments.
-/
inductive BeforeArgs (L : Layout) (ip : Option Inode) (m : Mem) (image : Image) (m' : Mem) : Prop where
  | intro {f : Inode} {elf : Elfhdr} {d0 d1 d2 : PgDir} {m0 m1 : Mem} {sz : Nat} (hip : ip = some f)
      (helf : readElfhdr f = some elf) (hkvm : setupkvm L m = .ok (some d0, m0))
      (hload : loadSegments L f elf.phnum elf.phoff d0 0 m0 = .ok (true, sz, d1, m1))
      (halloc : allocuvm L d1 (pgroundup sz) (uint (pgroundup sz + 2 * PGSIZE)) m1 = .ok (image.sz, d2, m'))
      (hclear : clearpteu d2 (uint (image.sz + 2 ^ 32 - 2 * PGSIZE)) m' = .ok image.pgdir)

-- The pages of the new image apart from its stack page are what they were before the arguments were copied.
def ArgsOnly (L : Layout) (ip : Option Inode) (m : Mem) (image : Image) (m' : Mem) : Prop :=
  ∃ m1, BeforeArgs L ip m image m1 ∧ ∀ v < UPAGES, (image.pgdir.pte v).present → v ≠ image.sz / PGSIZE - 1 →
    m'.data (image.pgdir.pte v).addr = m1.data (image.pgdir.pte v).addr

theorem exec_argStack {ip : Option Inode} {old : PgDir} (hold : old.Wf) (hs : m.Sound (Valid L) old.frames)
    (h : exec L ip argv old m = .ok (some image, m'))
    : ArgStack image.pgdir image.sz image.sp argv m' ∧ ArgsOnly L ip m image m' := by
  obtain ⟨f, elf, d0, d', m0, m2, hip, helf, hkvm, himage, hfreevm⟩ := exec_eq_some h
  obtain ⟨sz, d1, m1, hload, hstack⟩ := loadImage_eq_some himage
  have hfree : ∀ p ∈ m.free, Valid L p := fun p hp => hs.valid p (Multiset.mem_add.mpr (.inr hp))
  obtain ⟨hwf, hx0, hpages⟩ : d0.Wf ∧ m.Xfer 0 m0 d0.frames ∧ ∀ v < UPAGES, (d0.pte v).present = false := by
    rcases setupkvm_cases hfree with ⟨-, d, m1, heq, hwf, hx, -, hpages⟩ | ⟨-, m1, heq, -⟩
    . rw [hkvm] at heq
      simp only [Except.ok.injEq, Prod.mk.injEq, Option.some.injEq] at heq
      obtain ⟨rfl, rfl⟩ := heq
      exact ⟨hwf, hx, hpages⟩
    . rw [hkvm] at heq
      simp at heq
  have hfull : Full d0 0 := by
    intro w hw
    simp [hpages w hw, npages, PGSIZE]
  obtain ⟨htrades, hok⟩ := loadSegments_trades hfull hwf (by decide) hload
  obtain ⟨hfull1, hsz⟩ := hok rfl
  have hx1 := (hx0.frame old.frames).trans (htrades.xfer.frame old.frames)
  rw [zero_add] at hx1
  have hs1 := hx1.sound hs
  obtain ⟨htrades', himage'⟩ := setupStack_trades htrades.wf hfull1 hsz hstack
  obtain ⟨rfl, -, -⟩ := himage' image rfl
  have hs2 := (htrades'.xfer.frame old.frames).sound hs1
  have hx3 := freevm_xfer hold (fun p hp => hs2.valid p (by
    rw [Multiset.mem_add, Multiset.mem_add]
    exact .inl (.inr hp))) hfreevm
  -- what `freevm` gives back does not belong to the new image
  have hdata : ∀ v < UPAGES, (image.pgdir.pte v).present →
      m'.data (image.pgdir.pte v).addr = m2.data (image.pgdir.pte v).addr := by
    intro v hv hpresent
    apply hx3.data
    have hnodup := hs2.nodup
    rw [add_assoc, Multiset.nodup_add] at hnodup
    exact Multiset.disjoint_left.mp hnodup.2.2 (PgDir.addr_mem_frames hv hpresent)
  obtain ⟨hargs, d2, m3, halloc, hclear, hrest⟩ := setupStack_argStack htrades.wf
    (hs1.mono (Multiset.le_add_right _ _)) hsz hstack
  refine ⟨hargs.congr (hdata _ (hargs.accessible.lt htrades'.wf) hargs.accessible.1), m3, ?_, ?_⟩
  . exact ⟨hip, helf, hkvm, hload, halloc, hclear⟩
  . intro v hv hpresent hne
    rw [hdata v hv hpresent]
    apply hrest
    intro haddr
    have hnodup := (Multiset.nodup_add.mp (Multiset.nodup_add.mp hs2.nodup).1).1
    exact hne (PgDir.addr_inj hnodup hv (hargs.accessible.lt htrades'.wf) hpresent hargs.accessible.1 haddr)

/-!
A program without segments: its address space is the guard page and the stack.
-/

def emptyElf : Inode where
  readi off n := (([0x7F, 0x45, 0x4C, 0x46] ++ List.replicate 48 0 : List UInt8).drop off).take n
  readi_le off n := by
    rw [List.length_take]
    omega

theorem setupStack_eq_ok (entry : Nat) (hb : Built d 0) (hs : m.Sound (Valid L) d.frames)
    (hroom : 68 ≤ d.frames.card + m.free.length) (hargc : argv.length ≤ MAXARG)
    (hfit : argsSize argv + 4 * (argv.length + 4) ≤ PGSIZE)
    : ∃ image d' m', setupStack L d 0 entry argv m = .ok (some image, d', m') ∧ image.sz = 2 * PGSIZE ∧
        (d'.pte 0).present = true ∧ (d'.pte 0).user = false := by
  have hzero : pgroundup 0 = 0 := by decide
  have hsz : uint (0 + 2 * PGSIZE) = 2 * PGSIZE := by decide
  have hpages : npages (2 * PGSIZE) = 2 := by decide
  have hpages0 : npages 0 = 0 := by decide
  have hcost : spaceCost kernTabs 2 = 68 := by
    unfold spaceCost kernTabs
    rw [card_kernTabs]
    decide
  obtain ⟨d1, m1, Δ, halloc, hgrows, hfresh⟩ := allocuvm_eq_ok (L := L) (hb.within.mono (Nat.zero_le 2)) hs
    (by rw [hcost]; exact hroom) (Nat.zero_le (2 * PGSIZE)) (by decide) (Nat.le_of_eq hpages) (by
      intro w hw
      rw [hpages, Set.mem_Ico] at hw
      have := (hb.pages w (Nat.lt_of_lt_of_le hw.2 (by decide))).not.mpr (Nat.not_lt_zero w)
      simpa using this)
  rw [hpages, hpages0] at hfresh
  obtain ⟨p0, hpte0, -⟩ := hfresh 0 ⟨Nat.le_refl 0, by decide⟩
  obtain ⟨p1, hpte1, -⟩ := hfresh 1 ⟨Nat.zero_le 1, by decide⟩
  have htab : (d1.tab (0 / NPTENTRIES)).isSome := hgrows.wf.isSome_tab (by rw [hpte0])
  have hguard : uint (2 * PGSIZE + 2 ^ 32 - 2 * PGSIZE) = 0 * PGSIZE := by decide
  have hclear : clearpteu d1 (0 * PGSIZE) m1 = .ok (d1.setPte 0 { d1.pte 0 with user := false }) := by
    unfold clearpteu
    rw [walkpgdir_false_eq, if_pos htab, mul_pgsize_div]
  have htrades := (clearpteu_trades (m := m1) hgrows.wf hclear).2
  have hpage : (d1.setPte 0 { d1.pte 0 with user := false }).UserPage (PGSIZE / PGSIZE) := by
    rw [show PGSIZE / PGSIZE = 1 by decide]
    unfold PgDir.UserPage
    rw [PgDir.setPte_pte, if_neg (by decide), hpte1]
    exact ⟨rfl, rfl⟩
  have hpte : ((d1.setPte 0 { d1.pte 0 with user := false }).pte 0).present = true ∧
      ((d1.setPte 0 { d1.pte 0 with user := false }).pte 0).user = false := by
    rw [PgDir.setPte_pte, if_pos rfl, hpte0]
    exact ⟨rfl, rfl⟩
  generalize d1.setPte 0 { d1.pte 0 with user := false } = d2 at hclear htrades hpage hpte
  have hnodup := (Multiset.nodup_add.mp (((Trades.of_grows hgrows).trans htrades).xfer.sound hs).nodup).1
  have haligned : PGSIZE % PGSIZE = 0 := by decide
  have hargs : PGSIZE + argsSize argv ≤ 2 * PGSIZE := by omega
  obtain ⟨sp, args, m2, hpush, hlen, hlow, hhigh⟩ := pushArgs_eq_ok argv 0 [] m1 htrades.wf hnodup haligned hpage hargs
    (by omega) (by omega)
  rw [List.length_nil, Nat.zero_add] at hlen
  obtain ⟨sp', hsp', hlow', hhigh'⟩ : ∃ sp', uint (sp + 2 ^ 32 - (3 + args.length + 1) * 4) = sp' ∧ PGSIZE ≤ sp' ∧
      sp' + (args.length + 4) * 4 ≤ 2 * PGSIZE := by
    refine ⟨_, rfl, ?_⟩
    unfold uint PGSIZE at *
    omega
  obtain ⟨m3, hcopy⟩ := copyout_page sp'
    (([0xffffffff, args.length, uint (sp + 2 ^ 32 - (args.length + 1) * 4)] ++ args ++ [0]).flatMap bytes32) m2
    htrades.wf hnodup haligned hpage hlow' (by
      rw [length_flatMap_bytes32]
      simp only [List.length_append, List.length_cons, List.length_nil]
      omega)
  refine ⟨{ pgdir := d2, sz := 2 * PGSIZE, entry := entry, sp := sp' }, d2, m3, ?_, rfl, hpte⟩
  unfold setupStack
  rw [hzero]
  dsimp only
  rw [hsz, halloc]
  dsimp only
  rw [if_neg (by decide), hguard, hclear]
  dsimp only
  rw [hpush]
  dsimp only
  rw [hsp', hcopy]

theorem exec_emptyElf {old : PgDir} (argv : List (List UInt8)) (hold : old.Wf) (hs : m.Sound (Valid L) old.frames) (hlen : 68 ≤ m.free.length)
    (hargc : argv.length ≤ MAXARG) (hfit : argsSize argv + 4 * (argv.length + 4) ≤ PGSIZE)
    : ∃ image m', exec L (some emptyElf) argv old m = .ok (some image, m') ∧ image.sz = 2 * PGSIZE ∧
        (image.pgdir.pte 0).present = true ∧ (image.pgdir.pte 0).user = false ∧ m'.free ≠ [] := by
  have hfree : ∀ p ∈ m.free, Valid L p := fun p hp => hs.valid p (Multiset.mem_add.mpr (.inr hp))
  rcases setupkvm_cases hfree with ⟨-, d, m1, heq, hwf, hx, htabs, hpages⟩ | ⟨hlt, -⟩
  . have hb : Built d 0 := .zero hwf htabs hpages
    have hcard := hx.card
    have hx1 := hx.frame old.frames
    rw [zero_add] at hx1
    have hs1 := hx1.sound hs
    obtain ⟨image, d2, m2, hstack, hsz, hpresent, huser⟩ := setupStack_eq_ok (L := L) 0 hb
      (hs1.mono (Multiset.le_add_right _ _)) (by rw [hcard, Multiset.card_zero]; omega) hargc hfit
    obtain ⟨htrades, himage⟩ := setupStack_trades hwf (by
      intro w hw
      simp [hpages w hw, npages, PGSIZE]) (show 0 < KERNBASE by decide) hstack
    obtain ⟨rfl, -⟩ := himage image rfl
    have hs2 := (htrades.xfer.frame old.frames).sound hs1
    obtain ⟨m3, hfreevm, hx3⟩ := freevm_eq_ok (L := L) (m := m2) hold (by
      intro p hp
      apply hs2.valid
      rw [Multiset.mem_add, Multiset.mem_add]
      exact .inl (.inr hp))
    refine ⟨image, m3, ?_, hsz, hpresent, huser, ?_⟩
    . have helf : readElfhdr emptyElf = some { magic := ELF_MAGIC, entry := 0, phoff := 0, phnum := 0 } := rfl
      unfold exec
      dsimp only
      rw [helf]
      dsimp only
      rw [if_neg (by simp), heq]
      dsimp only [loadImage, loadSegments]
      rw [hstack]
      dsimp only
      rw [hfreevm]
    . intro hempty
      have hmem : old.page ∈ old.frames + (m2.free : Multiset Ppn) :=
        Multiset.mem_add.mpr (.inl old.page_mem_frames)
      rw [← hx3.total, hempty] at hmem
      simp at hmem
  . omega

end

-- The program is called with the two arguments "echo" and "hi".
theorem exec_argStack_boot
    : ∃ d kstack m image m', userinit Layout.small [] Mem.small = .ok (bootState d kstack m) ∧
        exec Layout.small (some emptyElf) [[101, 99, 104, 111], [104, 105]] d m = .ok (some image, m') ∧
        ArgStack image.pgdir image.sz image.sp [[101, 99, 104, 111], [104, 105]] m' ∧
        ArgsOnly Layout.small (some emptyElf) m image m' := by
  obtain ⟨d, kstack, m, hboot, -, -, hlen⟩ := Mem.small_boot
  have hinv := (userinit_inv Mem.small_sound hboot).1
  have hold : d.Wf := hinv.wf 0 _ rfl
  have hs : m.Sound (Valid Layout.small) d.frames := hinv.sound_pgdir (p := 0) rfl
  obtain ⟨image, m', hexec, -⟩ := exec_emptyElf [[101, 99, 104, 111], [104, 105]] hold hs (by omega)
    (by decide) (by decide)
  exact ⟨d, kstack, m, image, m', hboot, hexec, exec_argStack hold hs hexec⟩

end Xv6.Vm
