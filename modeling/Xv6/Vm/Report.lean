import Xv6.Vm.Account
import Xv6.Vm.Fault
import Xv6.Vm.Lazy
import Xv6.Vm.Resize

/-!
What `getmeminfo` says about one process while it calls `sbrk` and `mmap` and touches its memory. The pages that it has
been given and those that it has touched are remembered next to the machine.
-/

namespace Xv6.Vm

section

variable {L : Layout} {n : Word} {x x' : Proc} {m m' : Mem}

-- What `growproc` does to the size and to the pages, in terms of which pages are there.
inductive GrowCase (n : Word) (x : Proc) (m : Mem) (x' : Proc) : Prop where
  | same (hsz : x'.sz = x.sz) (hpte : ∀ v, (x'.pgdir.pte v).present = true ↔ (x.pgdir.pte v).present = true)
  | grown (hn : 0 < n.toInt) (hsz : x'.sz = x.sz + n.toNat) (hlt : x'.sz < KERNBASE)
      (hcost : allocCost x.pgdir (npages x.sz) (npages x'.sz) ≤ m.free.length)
      (hpte : ∀ v, (x'.pgdir.pte v).present = true ↔
        (x.pgdir.pte v).present = true ∨ npages x.sz ≤ v ∧ v < npages x'.sz)
  | shrunk (hn : n.toInt < 0) (hsz : (x'.sz : Int) = x.sz + n.toInt) (hpos : 0 < x'.sz)
      (hpte : ∀ v, (x'.pgdir.pte v).present = true ↔
        (x.pgdir.pte v).present = true ∧ ¬ (npages x'.sz ≤ v ∧ v < npages x.sz))
  | emptied (hn : n.toInt < 0) (hzero : x.sz + n.toInt = 0) (hsz : x'.sz = x.sz)
      (hpte : ∀ v, (x'.pgdir.pte v).present = true ↔ (x.pgdir.pte v).present = true ∧ ¬ v < npages x.sz)

theorem growproc_cases {ok : Bool} (hd : x.pgdir.Wf) (hs : m.Sound (Valid L) x.pgdir.frames) (hsz : x.sz ≤ KERNBASE)
    (htidy : Tidy x) (h : growproc L n x m = .ok (ok, x', m'))
    : GrowCase n x m x' := by
  have hlow : -2 ^ 31 ≤ n.toInt := BitVec.le_toInt n
  unfold growproc at h
  split at h
  . next hn =>
    have hint := Word.toInt_pos hn
    have hwrap : uint (x.sz + n.toNat) = x.sz + n.toNat := by
      apply uint_eq_self
      have := n.isLt
      have := BitVec.toInt_lt (x := n)
      unfold KERNBASE at hsz
      omega
    rw [hwrap] at h
    by_cases hlt : x.sz + n.toNat < KERNBASE
    . have hcases := allocuvm_cases (L := L) hd hs (Nat.le_add_right x.sz n.toNat) hlt
      generalize allocuvm L x.pgdir x.sz (x.sz + n.toNat) m = r at hcases h
      cases hcases with
      | done d m1 Δ hfills =>
        dsimp only at h
        rw [if_neg (by omega)] at h
        cases h
        have hcost := hfills.cost (npages_le_upages (Nat.le_of_lt hlt))
        refine .grown hn rfl hlt (by dsimp only; omega) ?_
        intro v
        dsimp only
        by_cases hv : v ∈ Set.Ico (npages x.sz) (npages (x.sz + n.toNat))
        . exact iff_of_true (hfills.present hv) (.inr hv)
        . rw [hfills.grows.pte v hv]
          exact (or_iff_left hv).symm
      | failed w d m1 m2 Δ Δ' hfills hw hfree hshrinks =>
        cases h
        have habsent : ∀ v ∈ Set.Ico (npages x.sz) (npages (x.sz + n.toNat)), (x.pgdir.pte v).present = false := by
          intro v hv
          by_contra hpresent
          rw [Bool.not_eq_false] at hpresent
          have := htidy v (Nat.lt_of_lt_of_le hv.2 (npages_le_upages (Nat.le_of_lt hlt))) hpresent
          exact absurd hv.1 (Nat.not_le.mpr this)
        have hback := hfills.restored hd (Nat.le_of_lt hw) habsent hshrinks
        refine .same rfl fun v => ?_
        dsimp only
        rw [hback.pte]
      | remap => cases h
    . have halloc : allocuvm L x.pgdir x.sz (x.sz + n.toNat) m = .ok (0, x.pgdir, m) := by
        unfold allocuvm
        rw [if_pos (Nat.not_lt.mp hlt)]
      rw [halloc] at h
      cases h
      exact .same rfl fun _ => Iff.rfl
  . split at h
    . next hn =>
      have hint := Word.toInt_neg hn
      by_cases hle : 0 ≤ x.sz + n.toInt
      . have huint : (uint (x.sz + n.toNat) : Int) = x.sz + n.toInt := by
          unfold uint KERNBASE at *
          omega
        generalize uint (x.sz + n.toNat) = newsz at huint h
        split at h
        . cases h
        . next sz d m1 hdealloc =>
          have hret := deallocuvm_sz (by omega) hdealloc
          have hclear := deallocuvm_clear hd (Nat.le_trans hsz (by decide)) hdealloc
          have hpte : ∀ v, (d.pte v).present = true ↔
              (x.pgdir.pte v).present = true ∧ ¬ (npages newsz ≤ v ∧ v < npages x.sz) := by
            intro v
            rw [hclear, PgDir.present_clear]
          split at h
          . next hzero =>
            cases h
            have hnone : npages newsz = 0 := by
              rw [← hret, hzero]
              rfl
            refine .emptied hn (by omega) rfl ?_
            intro v
            rw [hpte, hnone]
            simp
          . next hne =>
            cases h
            refine .shrunk hn (by dsimp only; omega) (Nat.pos_of_ne_zero hne) ?_
            rw [hret]
            exact hpte
      . have hdealloc : deallocuvm L x.pgdir x.sz (uint (x.sz + n.toNat)) m = .ok (x.sz, x.pgdir, m) := by
          unfold deallocuvm uint KERNBASE at *
          rw [if_pos (by omega)]
        rw [hdealloc] at h
        dsimp only at h
        split at h
        . cases h
          exact .same rfl fun _ => Iff.rfl
        . cases h
          exact .same rfl fun _ => Iff.rfl
    . cases h
      exact .same rfl fun _ => Iff.rfl

end

/-!
The machine.
-/

inductive Move where
  | sbrk (n : Word)
  | mmap (n : Word)
  | touch (va : Nat)
  | other (e : Event)

-- What the process in the slot `p` does, and in between what the others do.
def act (L : Layout) (p : Slot) : Machine State Move Output := fun s mv =>
  match mv with
  | .sbrk n => s.step L (.sbrk p n)
  | .mmap n => s.step L (.mmap p n)
  | .touch va => if s.stopped then none else (s.touch L p va).map fun s => (s, .none)
  | .other e => if e.slot = p then none else s.step L e

-- The pages of `x`.
def Proc.inUse (x : Proc) : Finset Nat :=
  (Finset.range (npages x.sz)).filter fun v => (x.pgdir.pte v).present = true

/--
The pages that have been allocated eagerly or touched. `sbrk` gives up those beyond the new size, and allocates those
between the two sizes. A touch counts when the access goes through.
-/
def note (p : Slot) (s : State) (mv : Move) (s' : State) (H : Finset Nat) : Finset Nat :=
  match mv, s.procs p, s'.procs p with
  | .sbrk _, some x, some x' => (H.filter fun v => v * PGSIZE < x'.sz) ∪ Finset.Ico (npages x.sz) (npages x'.sz)
  | .touch va, _, some x' => if x'.accessible va then insert (va / PGSIZE) H else H
  | _, _, _ => H

def noted (L : Layout) (p : Slot) : Machine (State × Finset Nat) Move Output :=
  Machine.watch (act L p) (note p)

-- The figures of the process are right.
def Right (p : Slot) (a : State × Finset Nat) : Prop :=
  ∀ x, a.1.procs p = some x → ∃ i, meminfo x a.1.mem = .ok i ∧
    i.physical = (a.2.filter fun v => v * PGSIZE < x.sz).card ∧ i.physical ≤ i.virtual

-- They change by as much as the step says.
def Moves (p : Slot) (a : State × Finset Nat) (mv : Move) (b : State × Finset Nat) : Prop :=
  ∀ x x' i i', a.1.procs p = some x → b.1.procs p = some x' → meminfo x a.1.mem = .ok i →
    meminfo x' b.1.mem = .ok i' →
      match mv with
      | .sbrk _ => True
      | .mmap _ => i'.physical = i.physical
      | .touch va => x'.accessible va → i'.physical = i.physical + if va / PGSIZE ∈ a.2 then 0 else 1
      | .other _ => i'.physical = i.physical

/-!
When they are right.
-/

-- The last page counts as a whole, and to the virtual size only if it ends with the process.
def Slack (x : Proc) : Prop :=
  x.sz % PGSIZE = 0 ∨ ∃ v < npages x.sz, (x.pgdir.pte v).present = false

structure SbrkFits (n : Word) (x : Proc) (m : Mem) : Prop where
  up : 0 < n.toInt → x.sz + n.toNat < KERNBASE →
    allocCost x.pgdir (npages x.sz) (npages (x.sz + n.toNat)) ≤ m.free.length →
      (x.sz + n.toNat) % PGSIZE = 0 ∨ ∃ v < npages x.sz, (x.pgdir.pte v).present = false
  down : n.toInt < 0 → 0 < x.sz + n.toInt →
    (x.sz + n.toInt) % PGSIZE = 0 ∨ ∃ v : Nat, (v * PGSIZE : Int) < x.sz + n.toInt ∧ (x.pgdir.pte v).present = false
  zero : n.toInt < 0 → x.sz + n.toInt = 0 → ∀ v < npages x.sz, (x.pgdir.pte v).present = false

structure TouchFits (va : Nat) (x : Proc) (m : Mem) : Prop where
  hole : InReach x va → Absent x va → Room x.pgdir m (va / PGSIZE) →
    x.sz % PGSIZE = 0 ∨ ∃ v < npages x.sz, v ≠ va / PGSIZE ∧ (x.pgdir.pte v).present = false
  guard : InReach x va → ¬ Absent x va → x.accessible va = false → m.free ≠ []

def Move.Fits (p : Slot) (s : State) (mv : Move) : Prop :=
  ∀ x, s.procs p = some x →
    match mv with
    | .sbrk n => SbrkFits n x s.mem
    | .mmap n => mmapAccepts n → x.sz + n.toNat ≤ KERNBASE
    | .touch va => TouchFits va x s.mem
    | .other _ => True

structure Tracked (L : Layout) (p : Slot) (a : State × Finset Nat) (x : Proc) : Prop where
  inv : Inv L a.1
  proc : a.1.procs p = some x
  size : x.sz ≤ KERNBASE
  tidy : Tidy x
  seen : a.2 = x.inUse
  slack : Slack x

section

variable {L : Layout} {p : Slot} {a b : State × Finset Nat} {s s' : State} {x x' : Proc} {m m' : Mem} {v : Nat}

theorem Proc.mem_inUse : v ∈ x.inUse ↔ v < npages x.sz ∧ (x.pgdir.pte v).present = true := by
  unfold inUse
  rw [Finset.mem_filter, Finset.mem_range]

theorem Slack.card_le (h : Slack x) : x.inUse.card ≤ x.sz / PGSIZE := by
  have hsub : x.inUse ⊆ Finset.range (npages x.sz) := Finset.filter_subset _ _
  rcases h with haligned | ⟨v, hv, habsent⟩
  . have := Finset.card_le_card hsub
    rw [Finset.card_range] at this
    unfold npages PGSIZE at *
    omega
  . have hlt : x.inUse ⊂ Finset.range (npages x.sz) := by
      refine Finset.ssubset_iff_of_subset hsub |>.mpr ⟨v, Finset.mem_range.mpr hv, ?_⟩
      rw [Proc.mem_inUse, habsent]
      simp
    have := Finset.card_lt_card hlt
    rw [Finset.card_range] at this
    unfold npages PGSIZE at *
    omega

theorem meminfo_eq (hd : x.pgdir.Wf) (hs : m.Sound (Valid L) x.pgdir.frames) (hsz : x.sz ≤ KERNBASE)
    : ∃ i, meminfo x m = .ok i ∧ i.physical = x.inUse.card ∧ i.virtual = x.sz / PGSIZE := by
  have hcounted : (Finset.range (npages x.sz)).filter (Counted x.pgdir) = x.inUse := by
    unfold Proc.inUse
    apply Finset.filter_congr
    intro v hv
    exact counted_iff hs (Nat.lt_of_lt_of_le (Finset.mem_range.mp hv) (npages_le_upages hsz))
  unfold meminfo
  rw [countPhysicalPages_eq hd hsz, hcounted]
  exact ⟨_, rfl, rfl, rfl⟩

theorem Tracked.meminfo (h : Tracked L p a x)
    : ∃ i, meminfo x a.1.mem = .ok i ∧ i.physical = a.2.card ∧ i.virtual = x.sz / PGSIZE := by
  rw [h.seen]
  exact meminfo_eq (h.inv.wf p x h.proc) (h.inv.sound_pgdir h.proc) h.size

theorem Tracked.right (h : Tracked L p a x) : Right p a := by
  intro y hy
  have heq : x = y := Option.some.inj (h.proc.symm.trans hy)
  subst heq
  obtain ⟨i, hi, hphysical, hvirtual⟩ := h.meminfo
  refine ⟨i, hi, ?_, ?_⟩
  . rw [hphysical, Finset.filter_true_of_mem]
    intro v hv
    rw [h.seen, Proc.mem_inUse] at hv
    exact lt_npages.mp hv.1
  . rw [hphysical, hvirtual, h.seen]
    exact h.slack.card_le

/-!
`sbrk`.
-/

theorem GrowCase.inUse {n : Word} (h : GrowCase n x m x') (hfits : SbrkFits n x m)
    : (x.inUse.filter fun v => v * PGSIZE < x'.sz) ∪ Finset.Ico (npages x.sz) (npages x'.sz) = x'.inUse := by
  ext v
  rw [Finset.mem_union, Finset.mem_filter, Finset.mem_Ico, Proc.mem_inUse, Proc.mem_inUse, ← lt_npages]
  cases h with
  | same hsz hpte =>
    rw [hpte, hsz]
    constructor
    . rintro (⟨hin, -⟩ | hnew)
      . exact hin
      . omega
    . intro hin
      exact .inl ⟨hin, hin.1⟩
  | grown hn hsz hlt hcost hpte =>
    have hmono := npages_mono (show x.sz ≤ x'.sz by omega)
    rw [hpte]
    constructor
    . rintro (⟨⟨hlow, hpresent⟩, hv⟩ | hnew)
      . exact ⟨hv, .inl hpresent⟩
      . exact ⟨hnew.2, .inr hnew⟩
    . rintro ⟨hv, hpresent | hnew⟩
      . by_cases hlow : v < npages x.sz
        . exact .inl ⟨⟨hlow, hpresent⟩, hv⟩
        . exact .inr ⟨Nat.not_lt.mp hlow, hv⟩
      . exact .inr hnew
  | shrunk hn hsz hpos hpte =>
    have hmono := npages_mono (show x'.sz ≤ x.sz by omega)
    rw [hpte]
    constructor
    . rintro (⟨⟨hlow, hpresent⟩, hv⟩ | hnew)
      . exact ⟨hv, hpresent, by omega⟩
      . omega
    . rintro ⟨hv, hpresent, -⟩
      exact .inl ⟨⟨by omega, hpresent⟩, hv⟩
  | emptied hn hzero hsz hpte =>
    rw [hpte, hsz]
    constructor
    . rintro (⟨⟨hlow, hpresent⟩, -⟩ | hnew)
      . simp [hfits.zero hn hzero v hlow] at hpresent
      . omega
    . rintro ⟨hlow, -, hhigh⟩
      exact absurd hlow hhigh

theorem GrowCase.slack {n : Word} (h : GrowCase n x m x') (hslack : Slack x) (hfits : SbrkFits n x m) : Slack x' := by
  unfold Slack
  have hmissing : ∀ {v}, ((x'.pgdir.pte v).present = true → (x.pgdir.pte v).present = true) →
      (x.pgdir.pte v).present = false → (x'.pgdir.pte v).present = false := by
    intro v hback habsent
    by_contra hpresent
    rw [hback (Bool.not_eq_false _ ▸ hpresent)] at habsent
    cases habsent
  cases h with
  | same hsz hpte =>
    rw [hsz]
    exact hslack.imp_right fun ⟨v, hv, habsent⟩ => ⟨v, hv, hmissing (hpte v).mp habsent⟩
  | grown hn hsz hlt hcost hpte =>
    rw [hsz] at hlt hcost
    have hmono := npages_mono (show x.sz ≤ x'.sz by omega)
    rcases hfits.up hn hlt hcost with haligned | ⟨v, hv, habsent⟩
    . exact .inl (by rwa [hsz])
    . refine .inr ⟨v, by omega, hmissing ?_ habsent⟩
      intro hpresent
      exact ((hpte v).mp hpresent).resolve_right (by omega)
  | shrunk hn hsz hpos hpte =>
    rcases hfits.down hn (by omega) with haligned | ⟨v, hv, habsent⟩
    . left
      unfold PGSIZE at *
      omega
    . refine .inr ⟨v, ?_, hmissing (fun hpresent => ((hpte v).mp hpresent).1) habsent⟩
      rw [lt_npages]
      omega
  | emptied hn hzero hsz hpte =>
    by_cases haligned : x'.sz % PGSIZE = 0
    . exact .inl haligned
    . right
      have hpos : 0 < npages x.sz := by
        rw [lt_npages, ← hsz, Nat.zero_mul]
        apply Nat.pos_of_ne_zero
        intro hempty
        exact haligned (by rw [hempty]; rfl)
      refine ⟨0, by rw [hsz]; exact hpos, ?_⟩
      by_contra hpresent
      exact ((hpte 0).mp (Bool.not_eq_false _ ▸ hpresent)).2 hpos

theorem sbrk_step {n : Word} {o : Output} (h : s.step L (.sbrk p n) = some (s', o)) (hp : s.procs p = some x)
    : (∃ why, s' = (s.stop why).1) ∨
      ∃ ok x' m', growproc L n x s.mem = .ok (ok, x', m') ∧ s' = s.set p (some x') m' := by
  unfold State.step at h
  dsimp only at h
  split at h
  . simp at h
  . rw [hp, Option.bind_some] at h
    split at h
    . next why heq =>
      cases h
      exact .inl ⟨why, rfl⟩
    . next val x' m' heq =>
      cases h
      right
      unfold sysSbrk at heq
      dsimp only at heq
      split at heq
      . cases heq
      . next hgrow =>
        cases heq
        exact ⟨false, x', m', hgrow, rfl⟩
      . next hgrow =>
        cases heq
        exact ⟨true, x', m', hgrow, rfl⟩

theorem Tracked.keep (h : Tracked L p a x) (hinv : Inv L b.1) (hproc : b.1.procs p = some x) (hseen : b.2 = a.2)
    : Tracked L p b x :=
  ⟨hinv, hproc, h.size, h.tidy, hseen.trans h.seen, h.slack⟩

theorem Tracked.sbrk {n : Word} {o : Output} (h : Tracked L p a x) (hfits : SbrkFits n x a.1.mem)
    (hstep : a.1.step L (.sbrk p n) = some (b.1, o)) (hnote : b.2 = note p a.1 (.sbrk n) b.1 a.2)
    : ∃ x', Tracked L p b x' := by
  have hinv := step_inv h.inv hstep
  rcases sbrk_step hstep h.proc with ⟨why, hstop⟩ | ⟨ok, x', m', hgrow, hset⟩
  . refine ⟨x, h.keep hinv (by rw [hstop]; exact h.proc) ?_⟩
    have hproc : b.1.procs p = some x := by
      rw [hstop]
      exact h.proc
    rw [hnote]
    unfold note
    rw [h.proc, hproc]
    dsimp only
    rw [Finset.Ico_self, Finset.union_empty, Finset.filter_true_of_mem]
    intro v hv
    rw [h.seen, Proc.mem_inUse] at hv
    exact lt_npages.mp hv.1
  . have hd := h.inv.wf p x h.proc
    have hcase := growproc_cases hd (h.inv.sound_pgdir h.proc) h.size h.tidy hgrow
    obtain ⟨-, -, hsz, htidy⟩ := growproc_trades hd hgrow
    have hproc : b.1.procs p = some x' := by rw [hset, State.set_procs, if_pos rfl]
    have hle := h.size
    refine ⟨x', hinv, hproc, by omega, htidy h.size h.tidy, ?_, hcase.slack h.slack hfits⟩
    rw [hnote, h.seen]
    unfold note
    rw [h.proc, hproc]
    exact hcase.inUse hfits

theorem mmapAccepts.mod {n : Word} (h : mmapAccepts n) : n.toNat % PGSIZE = 0 := by
  obtain ⟨hpos, hmod⟩ := not_or.mp h
  have hint := Word.toInt_pos (Int.not_le.mp hpos)
  rw [hint, not_not, Int.tmod_eq_emod_of_nonneg (by omega)] at hmod
  unfold PGSIZE
  omega

theorem inUse_mmap {sz : Nat} (htidy : Tidy x) (hle : x.sz ≤ sz) (hsz : sz ≤ KERNBASE)
    : ({ x with sz := sz } : Proc).inUse = x.inUse := by
  ext v
  rw [Proc.mem_inUse, Proc.mem_inUse]
  dsimp only
  constructor
  . rintro ⟨hv, hpresent⟩
    exact ⟨htidy v (Nat.lt_of_lt_of_le hv (npages_le_upages hsz)) hpresent, hpresent⟩
  . rintro ⟨hv, hpresent⟩
    exact ⟨Nat.lt_of_lt_of_le hv (npages_mono hle), hpresent⟩

theorem Tracked.mmap {n : Word} {o : Output} (h : Tracked L p a x) (hfits : mmapAccepts n → x.sz + n.toNat ≤ KERNBASE)
    (hstep : a.1.step L (.mmap p n) = some (b.1, o)) (hnote : b.2 = note p a.1 (.mmap n) b.1 a.2)
    : ∃ x', Tracked L p b x' := by
  have hinv := step_inv h.inv hstep
  unfold State.step at hstep
  dsimp only at hstep
  split at hstep
  . cases hstep
  . rw [h.proc, Option.bind_some] at hstep
    unfold sysMmap at hstep
    split at hstep
    . next hreject =>
      have hset := congrArg Prod.fst (Option.some.inj hstep)
      dsimp only at hset
      refine ⟨x, h.keep hinv ?_ hnote⟩
      rw [← hset, State.set_procs, if_pos rfl]
    . next haccept =>
      have hset := congrArg Prod.fst (Option.some.inj hstep)
      dsimp only at hset
      have hend := hfits haccept
      have hle : x.sz ≤ x.sz + n.toNat := Nat.le_add_right _ _
      rw [mmap_size h.size haccept] at hset
      refine ⟨{ x with sz := x.sz + n.toNat }, hinv, ?_, hend, ?_, ?_, ?_⟩
      . rw [← hset, State.set_procs, if_pos rfl]
      . exact h.tidy.of_subset hle fun _ hw => hw
      . rw [inUse_mmap h.tidy hle hend, ← h.seen]
        exact hnote
      . rcases h.slack with haligned | ⟨v, hv, habsent⟩
        . left
          have := mmapAccepts.mod haccept
          dsimp only
          unfold PGSIZE at *
          omega
        . exact .inr ⟨v, Nat.lt_of_lt_of_le hv (npages_mono hle), habsent⟩

/-!
Touches.
-/

theorem touch_step {va : Nat} {o : Output} (h : act L p s (.touch va) = some (s', o)) (hp : s.procs p = some x)
    : x.accessible va = true ∧ s' = s ∨ x.accessible va = false ∧ ∃ o, s.step L (.pgfault p va) = some (s', o) := by
  unfold act at h
  dsimp only at h
  split at h
  . cases h
  . unfold State.touch at h
    rw [hp] at h
    dsimp only at h
    split at h
    . next haccess =>
      cases h
      exact .inl ⟨haccess, rfl⟩
    . next haccess =>
      refine .inr ⟨Bool.not_eq_true _ ▸ haccess, ?_⟩
      cases hstep : s.step L (.pgfault p va) with
      | none => simp [hstep] at h
      | some r =>
        rw [hstep] at h
        cases h
        exact ⟨r.2, rfl⟩

theorem note_touch {va : Nat} {H : Finset Nat} (hp : s.procs p = some x) (hp' : s'.procs p = some x')
    : note p s (.touch va) s' H = if x'.accessible va then insert (va / PGSIZE) H else H := by
  unfold note
  rw [hp, hp']

theorem Tracked.touch {va : Nat} {o : Output} (h : Tracked L p a x) (hfits : TouchFits va x a.1.mem)
    (hstep : act L p a.1 (.touch va) = some (b.1, o)) (hnote : b.2 = note p a.1 (.touch va) b.1 a.2)
    : ∃ x', Tracked L p b x' := by
  rcases touch_step hstep h.proc with ⟨haccess, hsame⟩ | ⟨haccess, o', hfault⟩
  . have hproc : b.1.procs p = some x := by rw [hsame, h.proc]
    refine ⟨x, h.keep (hsame ▸ h.inv) hproc ?_⟩
    rw [hnote, note_touch h.proc hproc, if_pos haccess, h.seen, Finset.insert_eq_of_mem]
    obtain ⟨hv, hpresent⟩ := lt_upages_of_accessible (h.inv.wf p x h.proc) haccess
    exact Proc.mem_inUse.mpr ⟨h.tidy _ hv hpresent, hpresent⟩
  . have hinv := step_inv h.inv hfault
    have hd := h.inv.wf p x h.proc
    have hsz := h.inv.sz p x h.proc
    -- a fault that maps nothing
    have hback : b.1.procs p = some x → ∃ x', Tracked L p b x' := by
      intro hproc
      refine ⟨x, h.keep hinv hproc ?_⟩
      rw [hnote, note_touch h.proc hproc, haccess]
      rfl
    rcases pgfault_step hfault h.proc with ⟨why, -, hstop⟩ | ⟨x', m', heq, hset, -⟩
    . apply hback
      rw [congrArg Prod.fst hstop]
      exact h.proc
    . have hproc : b.1.procs p = some x' := by rw [hset, State.set_procs, if_pos rfl]
      cases pgfault_cases hd (h.inv.sound_pgdir h.proc) hsz va with
      | out hout heq' =>
        rw [heq] at heq'
        cases heq'
        exact hback hproc
      | served hr habsent hroom d m1 Δ heq' hgrows hfresh =>
        rw [heq] at heq'
        cases heq'
        have hpage : va / PGSIZE < npages x.sz := by
          have := hr.1
          unfold npages PGSIZE
          omega
        have hpte : ∀ v, (d.pte v).present = true ↔ v = va / PGSIZE ∨ (x.pgdir.pte v).present = true := by
          intro v
          by_cases hv : v = va / PGSIZE
          . obtain ⟨q, hq, -⟩ := hfresh v hv
            exact iff_of_true (by rw [hq]) (.inl hv)
          . rw [hgrows.pte v hv]
            exact (or_iff_right hv).symm
        refine ⟨_, hinv, hproc, h.size, ?_, ?_, ?_⟩
        . exact (pgfault_trades hd heq).2.2 h.size h.tidy
        . rw [hnote, note_touch h.proc hproc, accessible_of_fresh hfresh, if_pos rfl, h.seen]
          ext v
          rw [Finset.mem_insert, Proc.mem_inUse, Proc.mem_inUse, hpte]
          constructor
          . rintro (rfl | ⟨hv, hpresent⟩)
            . exact ⟨hpage, .inl rfl⟩
            . exact ⟨hv, .inr hpresent⟩
          . rintro ⟨hv, rfl | hpresent⟩
            . exact .inl rfl
            . exact .inr ⟨hv, hpresent⟩
        . rcases hfits.hole hr habsent hroom with haligned | ⟨v, hv, hne, hmissing⟩
          . exact .inl haligned
          . refine .inr ⟨v, hv, ?_⟩
            rw [hgrows.pte v hne]
            exact hmissing
      | failed hr habsent hroom m1 heq' =>
        rw [heq] at heq'
        cases heq'
        exact hback hproc
      | dropped hr hpresent hfree m1 heq' => exact absurd hfree (hfits.guard hr hpresent haccess)
      | remap hr hpresent hfree heq' =>
        rw [heq] at heq'
        cases heq'

theorem Tracked.step {mv : Move} {o : Output} (h : Tracked L p a x) (hfits : mv.Fits p a.1)
    (hstep : noted L p a mv = some (b, o))
    : ∃ x', Tracked L p b x' := by
  obtain ⟨hact, hnote⟩ := Machine.watch_eq_some hstep
  have hfits' := hfits x h.proc
  cases mv with
  | sbrk n => exact h.sbrk hfits' hact hnote
  | mmap n => exact h.mmap hfits' hact hnote
  | touch va => exact h.touch hfits' hact hnote
  | other e =>
    unfold act at hact
    dsimp only at hact
    split at hact
    . cases hact
    . next hslot =>
      exact ⟨x, h.keep (step_inv h.inv hact) (step_isolated h.inv hact (Ne.symm hslot) h.proc).1 hnote⟩

theorem Tracked.moves {mv : Move} {o : Output} (h : Tracked L p a x) (h' : Tracked L p b x')
    (hstep : noted L p a mv = some (b, o))
    : Moves p a mv b := by
  intro y y' i i' hy hy' hi hi'
  obtain rfl : x = y := Option.some.inj (h.proc.symm.trans hy)
  obtain rfl : x' = y' := Option.some.inj (h'.proc.symm.trans hy')
  have hnote := (Machine.watch_eq_some hstep).2
  obtain ⟨j, hj, hphysical, -⟩ := h.meminfo
  obtain ⟨j', hj', hphysical', -⟩ := h'.meminfo
  obtain rfl : i = j := Except.ok.inj (hi.symm.trans hj)
  obtain rfl : i' = j' := Except.ok.inj (hi'.symm.trans hj')
  rw [hphysical, hphysical']
  cases mv with
  | sbrk n => trivial
  | mmap n => exact congrArg Finset.card hnote
  | touch va =>
    intro haccess
    rw [note_touch h.proc h'.proc, if_pos haccess] at hnote
    rw [hnote, Finset.card_insert_eq_ite]
    split
    . rfl
    . rfl
  | other e => exact congrArg Finset.card hnote

end

/--
A process that was reached in any run from `userinit` on goes on with steps that all fit. Then its figures are right in
every state, and they change by what the steps do.
-/
theorem report_right {L : Layout} {init : List UInt8} {m : Mem} {s₀ s : State} {pre : List Event}
    (hs : m.Sound (Valid L) 0) (hboot : userinit L init m = .ok s₀)
    (hpre : Machine.Along (State.step L) (fun s e _ _ => MmapFits s e) s₀ pre)
    (hrun : Machine.run (State.step L) s₀ pre = some s) {p : Slot} {x : Proc} (hp : s.procs p = some x)
    (hslack : Slack x) (moves : List Move)
    (hfits : Machine.Along (noted L p) (fun a mv _ _ => mv.Fits p a.1) (s, x.inUse) moves)
    : Right p (s, x.inUse) ∧
        Machine.Along (noted L p) (fun a mv _ b => Right p b ∧ Moves p a mv b) (s, x.inUse) moves := by
  have hneat := run_neat hs hboot hpre hrun
  have htracked : Tracked L p (s, x.inUse) x :=
    ⟨hneat.inv, hp, (hneat.below p x hp).size, hneat.tidy p x hp, rfl, hslack⟩
  refine ⟨htracked.right, ?_⟩
  apply Machine.along_of_invariant (I := fun a => ∃ x, Tracked L p a x) _ ⟨x, htracked⟩ hfits
  rintro a mv o b ⟨y, h⟩ hstep hfits
  obtain ⟨y', h'⟩ := h.step hfits hstep
  exact ⟨⟨h'.right, h.moves h' hstep⟩, y', h'⟩

theorem report_right_boot
    : ∃ s x, userinit Layout.small [] Mem.small = .ok s ∧ s.procs 0 = some x ∧ Right 0 (s, x.inUse) ∧
        Machine.Along (noted Layout.small 0) (fun a mv _ b => Right 0 b ∧ Moves 0 a mv b) (s, x.inUse)
          [.mmap 8192, .touch 8000] := by
  obtain ⟨d, kstack, m, hboot, hb, -⟩ := Mem.small_boot
  refine ⟨_, _, hboot, rfl, ?_⟩
  have hpre : Machine.Along (State.step Layout.small) (fun s e _ _ => MmapFits s e) (bootState d kstack m) [] :=
    trivial
  apply report_right Mem.small_sound hboot hpre rfl rfl (.inl (show PGSIZE % PGSIZE = 0 by decide))
  have hact : act Layout.small 0 (bootState d kstack m) (.mmap 8192) = some ((bootState d kstack m).set 0
      (some { sz := uint (PGSIZE + 8192), pgdir := d, kstack := kstack, killed := false }) m, .ret (.ofNat 32 PGSIZE)) := rfl
  unfold noted
  rw [Machine.along_cons (Machine.watch_of_step (note 0) _ hact)]
  refine ⟨?_, ?_⟩
  . intro x hx
    rw [← Option.some.inj hx]
    intro _
    show PGSIZE + (8192 : Word).toNat ≤ KERNBASE
    decide
  . unfold Machine.Along
    split
    . refine ⟨?_, trivial⟩
      intro x hx
      rw [State.set_procs, if_pos rfl] at hx
      rw [← Option.some.inj hx]
      constructor
      . intro _ _ _
        exact .inl (show uint (PGSIZE + 8192) % PGSIZE = 0 by decide)
      . intro _ hpresent _
        have habsent := (hb.pages 1 (by decide)).not.mpr (by decide)
        exact absurd (Bool.eq_false_iff.mpr habsent) hpresent
    . trivial

-- `sbrk(1)` makes two pages of an address space of 4097 bytes, and the report says that they are one.
theorem sbrk_byte_exceeds_virtual
    : ∃ s x, userinit Layout.small [] Mem.small = .ok s ∧ s.procs 0 = some x ∧
        ¬ Machine.Along (noted Layout.small 0) (fun a mv _ b => Right 0 b ∧ Moves 0 a mv b) (s, x.inUse) [.sbrk 1] := by
  obtain ⟨d, kstack, m, hboot, hb, -, hlen⟩ := Mem.small_boot
  refine ⟨_, _, hboot, rfl, ?_⟩
  obtain ⟨x, hx, hp⟩ : ∃ x, ({ sz := PGSIZE, pgdir := d, kstack := kstack, killed := false } : Proc) = x ∧
      (bootState d kstack m).procs 0 = some x := ⟨_, rfl, rfl⟩
  have hpgdir : x.pgdir = d := by rw [← hx]
  have hsz : x.sz = PGSIZE := by rw [← hx]
  rw [hx]
  obtain ⟨hinv, hsizes⟩ := userinit_inv Mem.small_sound hboot
  have hfit : Fit Layout.small kernTabs 8192 0 (bootState d kstack m) x := by
    refine ⟨hinv, rfl, hp, by rw [hsz]; decide, ?_, (hsizes 0 x hp).2, ?_⟩
    . rw [hpgdir]
      exact hb.within.mono (by decide)
    . rw [spaceCost, kernTabs, card_kernTabs, hpgdir, hb.card (by decide)]
      have hcost : npages 8192 + (1 + 64 + tabsFor (npages 8192)) = 68 := by decide
      have hcard : copyCost 1 = 67 := by decide
      show _ ≤ copyCost 1 + m.free.length
      omega
  obtain ⟨s', x', hstep, hfit', hflat⟩ := sbrk_spec (n := 1) hfit (by decide) (fun _ => by rw [hsz]; decide)
  have hsz' : x'.sz = 4097 := by
    have : x'.sz = x.sz + 1 := congrArg Flat.sz hflat
    rw [this, hsz]
    rfl
  have hact : act Layout.small 0 (bootState d kstack m) (.sbrk 1) = some (s', _) := hstep
  have hnoted : noted Layout.small 0 (bootState d kstack m, x.inUse) (.sbrk 1) = some (_, _) :=
    Machine.watch_of_step (note 0) x.inUse hact
  rw [Machine.along_cons hnoted]
  rintro ⟨⟨hright, -⟩, -⟩
  obtain ⟨i, hi, -, hle⟩ := hright x' hfit'.proc
  have hd := hfit'.inv.wf 0 x' hfit'.proc
  obtain ⟨j, hj, hphysical, hvirtual⟩ := meminfo_eq hd (hfit'.inv.sound_pgdir hfit'.proc) (by rw [hsz']; decide)
  obtain rfl : i = j := Except.ok.inj (hi.symm.trans hj)
  rw [hphysical, hvirtual, hsz'] at hle
  -- both pages are there
  have hpages : ({0, 1} : Finset Nat) ⊆ x'.inUse := by
    have hcase : GrowCase 1 x m x' := by
      rcases sbrk_step hstep hp with ⟨why, hstop⟩ | ⟨ok, x1, m1, hgrow, hset⟩
      . have hsame := hfit'.proc
        rw [hstop] at hsame
        have := congrArg Proc.sz (Option.some.inj (hp.symm.trans hsame))
        rw [hsz, hsz'] at this
        cases this
      . have hproc := hfit'.proc
        rw [hset, State.set_procs, if_pos rfl, Option.some.injEq] at hproc
        rw [← hproc]
        exact growproc_cases (hinv.wf 0 x hp) (hinv.sound_pgdir hp) (by rw [hsz]; decide) (hsizes 0 x hp).2 hgrow
    have hpos : 0 < (1 : Word).toInt := by decide
    have hend : npages x'.sz = 2 := by rw [hsz']; rfl
    have hstart : npages x.sz = 1 := by rw [hsz]; rfl
    cases hcase with
    | same hsame => rw [hsz, hsz'] at hsame; cases hsame
    | shrunk hneg => omega
    | emptied hneg => omega
    | grown hn hsum hlt hcost hpte =>
      rw [hstart, hend] at hpte
      have hzero : (x'.pgdir.pte 0).present = true := by
        rw [hpte, hpgdir]
        exact .inl ((hb.pages 0 (by decide)).mpr Nat.one_pos)
      have hone : (x'.pgdir.pte 1).present = true := by
        rw [hpte]
        exact .inr ⟨Nat.le_refl 1, by decide⟩
      intro v hv
      rw [Proc.mem_inUse, hend]
      rcases Finset.mem_insert.mp hv with rfl | hv
      . exact ⟨by decide, hzero⟩
      . rw [Finset.mem_singleton.mp hv]
        exact ⟨by decide, hone⟩
  have := Finset.card_le_card hpages
  rw [Finset.card_pair (by decide)] at this
  unfold PGSIZE at hle
  omega

end Xv6.Vm
