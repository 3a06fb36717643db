import Xv6.Sysfile.Lookup

/-!
The system calls change the directories as `Graph.effect` says.
-/

namespace Xv6.Sysfile

open Xv6.Fs Xv6.Path

variable {dl nd : Prop} {refs : Nat → Nat} {locked : List Nat} {s : Store} {ino : Graph} {d dp i j ninodes : Nat}
variable {name name' path old new : List UInt8} {cs : List (List UInt8)} {room : Store → Bool} {cwd : Nat} {ip : Inode}

theorem Kept.update (h : Kept refs ino) (hpos : 0 < refs i) : Kept refs (Function.update ino i ip) := by
  funext j
  by_cases hj : j = i
  . subst hj
    rw [Graph.sweep, if_neg (by omega)]
  . have := congrFun h j
    rw [Graph.sweep, Function.update_of_ne hj]
    exact this

theorem Kept.add (h : Kept refs ino) (hip : ip.nlink ≠ 0) (ht : (ino dp).type ≠ 0)
    : Kept refs (ino.add dp i name ip) := by
  funext j
  unfold Graph.sweep Graph.add
  by_cases hj : j = dp
  . subst hj
    rw [Function.update_self, if_neg]
    intro hz
    have := h.pos (Nat.eq_zero_of_add_eq_zero_right hz.1) ht
    omega
  . rw [Function.update_of_ne hj]
    by_cases hi : j = i
    . subst hi
      rw [Function.update_self, if_neg fun hz => hip hz.1]
    . rw [Function.update_of_ne hi]
      exact congrFun h j

theorem sweep_update (hpos : 0 < refs i)
    : Function.update (ino.sweep refs) i ip = Graph.sweep refs (Function.update ino i ip) := by
  funext j
  unfold Graph.sweep
  by_cases hj : j = i
  . subst hj
    rw [Function.update_self, Function.update_self, if_neg (by omega)]
  . rw [Function.update_of_ne hj, Function.update_of_ne hj]

namespace Graph

theorem add_congr (ino : Graph) (h : key name = key name') : ino.add dp i name ip = ino.add dp i name' ip := by
  unfold add
  rw [h]

def relink (ino : Graph) (i n : Nat) : Graph :=
  Function.update ino i { ino i with nlink := n }

-- The paths depend on the types and the entries only.
theorem find_relink (ino : Graph) (i n : Nat)
    : (ino.relink i n).find d name = ino.find d name := by
  unfold find relink
  by_cases hd : d = i
  . subst hd
    simp
  . simp [hd]

theorem type_relink (ino : Graph) (i n : Nat)
    : (ino.relink i n d).type = (ino d).type := by
  unfold relink
  by_cases hd : d = i
  . subst hd
    simp
  . simp [hd]

theorem ents_relink (ino : Graph) (i n : Nat)
    : (ino.relink i n d).ents = (ino d).ents := by
  unfold relink
  by_cases hd : d = i
  . subst hd
    simp
  . simp [hd]

@[simp]
theorem nlink_relink (ino : Graph) (i n : Nat) : (ino.relink i n i).nlink = n := by
  unfold relink
  rw [Function.update_self]

@[simp]
theorem relink_relink (ino : Graph) (i m n : Nat) : (ino.relink i m).relink i n = ino.relink i n := by
  unfold relink
  rw [Function.update_self, Function.update_idem]

@[simp]
theorem relink_self (ino : Graph) (i : Nat) : ino.relink i (ino i).nlink = ino :=
  Function.update_eq_self i ino

theorem namex_relink (ino : Graph) (i n : Nat) (parent : Bool)
    : (ino.relink i n).namex parent d cs = ino.namex parent d cs := by
  induction cs generalizing d with
  | nil => rfl
  | cons e cs ih =>
    unfold namex
    simp only [type_relink, find_relink, ih]

theorem sound_relink (h : Sound ino) (i n : Nat) : Sound (ino.relink i n) := by
  intro d ht de hde hne
  rw [type_relink] at ht ⊢
  rw [ents_relink] at hde
  exact h d ht de hde hne

end Graph

namespace At

theorem locks (h : At refs locked ino s) {locked' : List Nat} (heq : ∀ i, i ∈ locked ↔ i ∈ locked')
    : At refs locked' ino s :=
  ⟨{ h.1 with
    lock := fun i => by rw [h.1.lock, heq]
    held := fun i hi => h.1.held i ((heq i).mpr hi) }, h.2⟩

theorem swap (h : At refs [i, j] ino s) : At refs [j, i] ino s := by
  apply h.locks
  intro k
  simp [or_comm]

-- The count does not wrap around.
theorem addLink (h : At refs locked ino s) (hi : i ∈ locked) (ht : (ino i).type ≠ 0) {m : Nat} {n : Int}
    (hm : ((ino i).nlink : Int) + n = m) (hlt : m < 2 ^ 16)
    : At refs locked (ino.relink i m) (addLink s i n) := by
  obtain ⟨hconf, rfl⟩ := h
  have hmod : ((m : Int) % 2 ^ 16).toNat = m := by omega
  unfold Sysfile.addLink
  rw [hm, hmod]
  exact ⟨hconf.setIno hi ht, rfl⟩

theorem dirlink_new (h : At refs locked ino s) (hdp : dp ∈ locked) (ht : (ino dp).type = T_DIR)
    (hfind : ino.find dp name = none) (inum : Nat)
    : Ends (Fine dl nd)
        (fun a => a.2 = 0 ∧ At refs locked
          (Function.update ino dp { ino dp with ents := Graph.enter (ino dp).ents ⟨inum, key name⟩ }) a.1)
        (dirlink ninodes room s dp name inum) := by
  have hname : findName (ino dp).ents name = none := Option.map_eq_none_iff.mp hfind
  unfold dirlink
  apply (h.dirlookup ht name).bind
  rintro ⟨s1, found⟩ ⟨hfound, h1⟩
  rw [hname] at hfound
  cases hfound
  dsimp only [Option.elim] at h1 ⊢
  split
  . exact .inl (by decide)
  . split
    . exact .inl (by decide)
    . obtain ⟨hconf, rfl⟩ := h1
      refine ⟨rfl, hconf.setIno hdp ?_, rfl⟩
      rw [ht]
      decide

-- The name is there already. Its inode is put back, which waits for ever if it is locked.
theorem dirlink_old (h : At refs locked ino s) (hkept : Kept refs ino) (ht : (ino dp).type = T_DIR)
    (hfind : ino.find dp name = some i) (hdl : i ∈ locked → dl) (inum : Nat)
    : Ends (Fine dl nd) (fun a => a.2 = -1 ∧ i ∉ locked ∧ At refs locked ino a.1)
        (dirlink ninodes room s dp name inum) := by
  obtain ⟨j, hj, hget⟩ := Option.map_eq_some_iff.mp hfind
  unfold dirlink
  apply (h.dirlookup ht name).bind
  rintro ⟨s1, found⟩ ⟨hfound, h1⟩
  rw [hj, Option.map_some, hget] at hfound
  cases hfound
  dsimp only [Option.elim] at h1 ⊢
  by_cases hi : i ∈ locked
  . have hlock := (h1.1.lock i).mpr hi
    unfold Sysfile.iput
    rw [if_pos hlock]
    exact hdl hi
  . exact (At.iput h1 hi hkept).bind fun s2 h2 => ⟨rfl, hi, h2⟩

end At

/--
A call may begin: no inode has neither links nor references, there is a reference to the current directory and, as far as
`nd` goes, no entry dangles.
-/
structure Ready (nd : Prop) (refs : Nat → Nat) (ino : Graph) (cwd : Nat) : Prop where
  kept : Kept refs ino
  pos : 0 < refs cwd
  sound : nd → Sound ino
  root : nd → (ino ROOTINO).type ≠ 0
  cwd : nd → (ino cwd).type ≠ 0

-- A file has one link more in the middle of the call.
theorem Ready.relink (h : Ready nd refs ino cwd) (i n : Nat)
    : Ready nd (more refs i) (ino.relink i n) cwd where
  kept := (h.kept.more i).update (by rw [more_self]; omega)
  pos := h.pos.trans_le (le_more refs i cwd)
  sound hn := Graph.sound_relink (h.sound hn) i n
  root hn := by
    rw [Graph.type_relink]
    exact h.root hn
  cwd hn := by
    rw [Graph.type_relink]
    exact h.cwd hn

namespace At

theorem namei (h : At refs [] ino s) (hr : Ready nd refs ino cwd) (path : List UInt8)
    : Ends (Fine dl nd)
        (fun a => a.2 = ino.namei cwd path ∧ (nd → ∀ i ∈ a.2, (ino i).type ≠ 0) ∧
          At (a.2.elim refs (more refs)) [] ino a.1)
        (namei ninodes cwd path s) := by
  apply (h.namex false hr.kept hr.sound hr.pos hr.root hr.cwd path).bind
  rintro ⟨s1, r, name⟩ ⟨hgoal, -, h1⟩
  dsimp only at hgoal
  refine ⟨hgoal, ?_, h1⟩
  intro hn i hi
  dsimp only at hi
  rw [hgoal] at hi
  obtain ⟨⟨k, e⟩, hk, rfl⟩ := Option.map_eq_some_iff.mp hi
  apply Graph.namex_type (hr.sound hn) _ hk
  unfold Graph.start
  split
  . exact hr.root hn
  . exact hr.cwd hn

theorem nameiparent (h : At refs [] ino s) (hr : Ready nd refs ino cwd) (path : List UInt8)
    : Ends (Fine dl nd) (Found true refs ino (ino.nameiparent cwd path)) (nameiparent ninodes cwd path s) :=
  h.namex true hr.kept hr.sound hr.pos hr.root hr.cwd path

theorem linkBad (h : At (more refs i) [] (ino.relink i ((ino i).nlink + 1)) s)
    (hkept : Kept refs ino) (ht : (ino i).type ≠ 0) (hlt : (ino i).nlink < 2 ^ 15)
    : Ends (Fine dl nd) (fun a => At refs [] ino a.1) (linkBad s i) := by
  have hpos : 0 < more refs i i := by
    rw [more_self]
    omega
  unfold Sysfile.linkBad
  apply (h.ilock hpos List.not_mem_nil fun _ => by rwa [Graph.type_relink]).bind
  rintro s1 ⟨h1, -⟩
  have h2 := h1.addLink (m := (ino i).nlink) (n := -1) List.mem_cons_self (by rwa [Graph.type_relink])
    (by rw [Graph.nlink_relink]; omega) (by omega)
  rw [Graph.relink_relink, Graph.relink_self] at h2
  exact (h2.iunlockput List.not_mem_nil hkept).bind fun s3 h3 => h3

-- The new entry of `sys_link`.
theorem linkEntry (h : At (more (more refs i) dp) [] (ino.relink i ((ino i).nlink + 1)) s)
    (hkept : Kept refs ino) (ht : (ino i).type ≠ 0) (hlt : (ino i).nlink < 2 ^ 15) (hdir : (ino i).type ≠ T_DIR)
    (hdp : (ino dp).type = T_DIR) (hdl : ino.find dp name = some dp → dl)
    : Ends (Fine dl nd)
        (fun a => ino.find dp name ≠ some dp ∧ At refs []
          (if (ino.find dp name).isNone then ino.add dp i name { ino i with nlink := (ino i).nlink + 1 } else ino) a.1)
        (do
          let s ← Sysfile.ilock s dp
          let (s, r) ← dirlink ninodes room s dp name i
          let s ← Sysfile.iunlockput s dp
          if r < 0 then Sysfile.linkBad s i
          else
            let s ← Sysfile.iput s i
            return (s, 0)) := by
  have hne : dp ≠ i := by
    rintro rfl
    exact hdir hdp
  have hpos : 0 < more (more refs i) dp dp := by
    rw [more_self]
    omega
  have hdp' : (ino.relink i ((ino i).nlink + 1) dp).type = T_DIR := by
    rwa [Graph.type_relink]
  have hkept' : Kept (more refs i) (ino.relink i ((ino i).nlink + 1)) :=
    (hkept.more i).update (by rw [more_self]; omega)
  apply (h.ilock hpos List.not_mem_nil fun _ => by rw [hdp']; decide).bind
  rintro s1 ⟨h1, -⟩
  cases hfind : ino.find dp name with
  | some k =>
    have hold : (ino.relink i ((ino i).nlink + 1)).find dp name = some k := by
      rwa [Graph.find_relink]
    apply (h1.dirlink_old (hkept'.more dp) hdp' hold (fun hk => hdl ?_) i).bind
    . rintro ⟨s2, r⟩ ⟨hr, hk, h2⟩
      apply (At.iunlockput h2 List.not_mem_nil hkept').bind
      intro s3 h3
      cases hr
      apply (h3.linkBad hkept ht hlt).mono
      intro a ha
      refine ⟨?_, ha⟩
      rintro ⟨⟩
      exact hk List.mem_cons_self
    . rw [hfind, List.mem_singleton.mp hk]
  | none =>
    have hnew : (ino.relink i ((ino i).nlink + 1)).find dp name = none := by
      rwa [Graph.find_relink]
    have hadd : Kept refs (ino.add dp i name { ino i with nlink := (ino i).nlink + 1 }) :=
      hkept.add (Nat.succ_ne_zero _) (by rw [hdp]; decide)
    apply (h1.dirlink_new List.mem_cons_self hdp' hnew i).bind
    rintro ⟨s2, r⟩ ⟨hr, h2⟩
    have heq : Function.update (ino.relink i ((ino i).nlink + 1)) dp
        { ino.relink i ((ino i).nlink + 1) dp with
          ents := Graph.enter (ino.relink i ((ino i).nlink + 1) dp).ents
            ⟨i, key name⟩ } = ino.add dp i name { ino i with nlink := (ino i).nlink + 1 } := by
      unfold Graph.relink Graph.add
      rw [Function.update_of_ne hne, if_neg hdir]
      rfl
    rw [heq] at h2
    apply (At.iunlockput h2 List.not_mem_nil (hadd.more i)).bind
    intro s3 h3
    cases hr
    exact (At.iput h3 List.not_mem_nil hadd).bind fun s4 h4 => ⟨fun hf => (by cases hf), h4⟩

/-- `sys_link` waits for itself if and only if the new name is one of the directory itself. -/
theorem sysLink (h : At refs [] ino s) (hr : Ready nd refs ino cwd) (hs : ino.Short) (old new : List UInt8)
    : Ends (Fine (ino.Waits cwd old new) nd)
        (fun a => ¬ ino.Waits cwd old new ∧ At refs [] (ino.link cwd old new) a.1)
        (sysLink ninodes room cwd old new s) := by
  unfold Sysfile.sysLink Graph.link Graph.linked
  apply (h.namei hr old).bind
  rintro ⟨s1, ip⟩ ⟨hip, htype, h1⟩
  dsimp only at hip htype h1 ⊢
  rw [← hip]
  cases ip with
  | none =>
    refine ⟨?_, h1⟩
    rintro ⟨ip, dp, e, hold, -⟩
    rw [← hip] at hold
    cases hold
  | some ip =>
    have hpos : 0 < more refs ip ip := by
      rw [more_self]
      omega
    rw [Option.bind_some]
    apply (At.ilock h1 hpos List.not_mem_nil fun hn => htype hn ip rfl).bind
    rintro s2 ⟨h2, ht⟩
    rw [h2.2]
    by_cases hdir : (ino ip).type = T_DIR
    . rw [if_pos hdir, if_pos (.inl hdir)]
      apply (h2.iunlockput List.not_mem_nil hr.kept).bind
      intro s3 h3
      refine ⟨?_, h3⟩
      rintro ⟨ip', dp, e, hold, hfile, -⟩
      rw [← hip] at hold
      cases hold
      exact hfile hdir
    . rw [if_neg hdir, if_neg (not_or.mpr ⟨hdir, ht⟩)]
      have hlt := hs ip
      apply ((h2.addLink (m := (ino ip).nlink + 1) List.mem_cons_self ht (by omega) (by omega)).iunlock
        List.not_mem_nil).bind
      intro s3 h3
      apply (h3.nameiparent (hr.relink ip _) new).bind
      rintro ⟨s4, dp, name⟩ ⟨hgoal, hkey, h4⟩
      unfold Graph.nameiparent at hgoal hkey
      rw [Graph.namex_relink] at hgoal hkey
      rw [Graph.room]
      dsimp only at hgoal hkey h4 ⊢
      change dp = (ino.nameiparent cwd new).map Prod.fst at hgoal
      change ∀ r ∈ ino.nameiparent cwd new, _ at hkey
      cases hdp : ino.nameiparent cwd new with
      | none =>
        rw [hdp] at hgoal
        rw [hgoal] at h4 ⊢
        apply (h4.linkBad hr.kept ht hlt).mono
        intro a ha
        refine ⟨?_, ha⟩
        rintro ⟨ip', dp, e, -, -, hnew, -⟩
        rw [hdp] at hnew
        cases hnew
      | some r =>
        obtain ⟨d, e⟩ := r
        rw [hdp] at hgoal
        rw [hgoal] at h4 ⊢
        have hd := Graph.namex_parent hdp
        have hkey : key name = key e := hkey (d, e) hdp rfl
        have hfind := Graph.find_congr (d := d) ino hkey
        refine Ends.mono (At.linkEntry h4 hr.kept ht hlt hdir hd fun hself => ?_) ?_
        . exact ⟨ip, d, e, hip.symm, hdir, hdp, by rwa [← hfind]⟩
        . rintro a ⟨hself, ha⟩
          rw [hfind, Graph.add_congr ino hkey] at ha
          constructor
          . rintro ⟨ip', dp, e', -, -, hnew, hself'⟩
            rw [hdp] at hnew
            cases hnew
            exact hself (by rwa [hfind])
          . cases hnone : ino.find d e with
            | none =>
              rw [hnone] at ha
              rw [Option.filter_some, if_pos (by dsimp only; rw [hnone]; rfl)]
              exact ha
            | some k =>
              rw [hnone] at ha
              rw [Option.filter_some, if_neg (by dsimp only; rw [hnone]; simp)]
              exact ha

end At

end Xv6.Sysfile
