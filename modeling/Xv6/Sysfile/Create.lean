import Xv6.Sysfile.Calls

/-!
`create`, and the calls that use it.
-/

namespace Xv6.Sysfile

open Xv6.Fs Xv6.Path

variable {dl nd : Prop} {refs : Nat → Nat} {locked : List Nat} {s : Store} {ino : Graph} {d dp i j ninodes type : Nat}
variable {name name' path : List UInt8} {room : Store → Bool} {cwd : Nat} {ip : Inode}

theorem ialloc_type (h : ino.ialloc ninodes = some i) : (ino i).type = 0 := by
  have := List.find?_some h
  simpa using this

theorem ialloc_range (h : ino.ialloc ninodes = some i) : 0 < i ∧ i < ninodes := by
  have := List.mem_of_find?_eq_some h
  rw [List.mem_range'_1] at this
  omega

namespace At

-- A free inode that is taken, with its lock.
theorem take (h : At refs locked ino s) (hi : (ino i).type = 0) (hip : ip.type ≠ 0)
    : Ends (Fine dl nd)
        (fun s' => Ends (Fine dl nd) (At (more refs i) (i :: locked) (Function.update ino i ip)) (Sysfile.ilock s' i))
        (Sysfile.iget ninodes (s.setIno i ip) i) := by
  obtain ⟨h, rfl⟩ := h
  have hfree : i ∉ locked := by
    intro hmem
    obtain ⟨hpos, hvalid⟩ := h.held i hmem
    exact h.live i hvalid hpos hi
  have hlock : (s.icache i).lock = false := by
    rw [← Bool.not_eq_true, h.lock]
    exact hfree
  have hconf : Conf (more refs i) (i :: locked)
      ((s.setIno i ip).setEntry i ⟨refs i + 1, true, true⟩) := by
    apply h.set (fun j hj => more_of_ne hj)
    . intro j hj
      simp [hj]
    . rw [more_self]
    . simp
    . intro _
      exact ⟨by rw [more_self]; omega, rfl⟩
    . exact fun _ _ => hip
    . intro _ _
      exact ⟨by rw [more_self]; omega, rfl⟩
    . exact fun hz => absurd hz hip
  have hilock : ∀ e : Entry, e.ref = refs i + 1 → e.lock = false →
      Sysfile.ilock ((s.setIno i ip).setEntry i e) i =
        .ok ((s.setIno i ip).setEntry i ⟨refs i + 1, true, true⟩) := by
    intro e href hlock
    unfold Sysfile.ilock
    simp [Store.setEntry, Store.setIno, href, hlock, hip]
  unfold Sysfile.iget
  rw [setIno_icache]
  split
  . change Ends _ _ (Sysfile.ilock _ i)
    rw [hilock { s.icache i with ref := (s.icache i).ref + 1 } (by rw [h.ref]) hlock]
    exact ⟨hconf, rfl⟩
  . next hzero =>
    rw [h.ref] at hzero
    split
    . change Ends _ _ (Sysfile.ilock _ i)
      rw [hilock { s.icache i with ref := 1, valid := false } (by dsimp only; omega) hlock]
      exact ⟨hconf, rfl⟩
    . exact .inl (by decide)

theorem ialloc {β : Type} {Q : β → Prop} {k : Store × Nat → Store → Except Stop β} (h : At refs locked ino s)
    (ht : type ≠ 0)
    (hk : ∀ s0 i s', ino.ialloc ninodes = some i →
      At (more refs i) (i :: locked) (Function.update ino i ⟨type, 0, []⟩) s' → Ends (Fine dl nd) Q (k (s0, i) s'))
    : Ends (Fine dl nd) Q (Sysfile.ialloc ninodes s type >>= fun a => Sysfile.ilock a.1 a.2 >>= k a) := by
  unfold Sysfile.ialloc
  rw [h.2]
  split
  . exact .inl (by decide)
  . next i hi =>
    simp only [bind_assoc, pure_bind]
    have htake : Ends (Fine dl nd)
        (fun s' => Ends (Fine dl nd)
          (At (more refs i) (i :: locked) (Function.update ino i ⟨type, 0, []⟩)) (Sysfile.ilock s' i))
        (Sysfile.iget ninodes (s.setIno i ⟨type, 0, []⟩) i) := h.take (ialloc_type hi) ht
    apply htake.bind
    intro s1 h1
    exact Ends.bind h1 fun s' h' => hk s1 i s' hi h'

theorem createDots (h : At refs locked ino s) (hi : i ∈ locked) (hdp : dp ∈ locked) (hne : dp ≠ i) (hzero : i ≠ 0)
    (hip : ino i = ⟨T_DIR, 1, []⟩) (ht : (ino dp).type = T_DIR) (hlt : (ino dp).nlink < 2 ^ 15)
    : Ends (Fine dl nd)
        (At refs locked
          (Function.update (Function.update ino dp { ino dp with nlink := (ino dp).nlink + 1 }) i
            (Graph.newInode T_DIR dp i)))
        (createDots ninodes room s dp i) := by
  have hdir : T_DIR ≠ 0 := by decide
  unfold Sysfile.createDots
  have h1 := h.addLink (m := (ino dp).nlink + 1) (n := 1) hdp (by rwa [ht]) (by omega) (by omega)
  have hi1 : ino.relink dp ((ino dp).nlink + 1) i = ⟨T_DIR, 1, []⟩ := by
    unfold Graph.relink
    rw [Function.update_of_ne hne.symm, hip]
  have hnone1 : (ino.relink dp ((ino dp).nlink + 1)).find i dot = none := by
    unfold Graph.find
    rw [hi1]
    rfl
  apply (h1.dirlink_new hi (by rw [hi1]) hnone1 i).bind
  rintro ⟨s2, r⟩ ⟨hr, h2⟩
  cases hr
  rw [hi1] at h2
  have h2 : At refs locked (Function.update (ino.relink dp ((ino dp).nlink + 1)) i ⟨T_DIR, 1, [⟨i, key dot⟩]⟩) s2 := h2
  have hnone2 : Graph.find (Function.update (ino.relink dp ((ino dp).nlink + 1)) i ⟨T_DIR, 1, [⟨i, key dot⟩]⟩) i dotdot =
      none := by
    have hdots : namecmp dotdot (key dot) ≠ 0 := by decide
    unfold Graph.find findName
    rw [Function.update_self]
    simp [hdots]
  apply (h2.dirlink_new hi (by rw [Function.update_self]) hnone2 dp).bind
  rintro ⟨s3, r⟩ ⟨hr, h3⟩
  cases hr
  have henter : Graph.enter [⟨i, key dot⟩] ⟨dp, key dotdot⟩ = [⟨i, key dot⟩, ⟨dp, key dotdot⟩] := by
    unfold Graph.enter Graph.slot setEnt
    simp [hzero]
  rw [Function.update_self, Function.update_idem, henter] at h3
  exact h3

end At

-- The new inode is there with its `..`, but it has no name yet.
def Graph.unnamed (ino : Graph) (type dp i : Nat) : Graph :=
  Function.update (Function.update ino i (newInode type dp i)) dp
    { ino dp with nlink := (ino dp).nlink + if type = T_DIR then 1 else 0 }

namespace At

-- The new inode gets its name.
theorem createEntry (h : At (more (more refs dp) i) [i, dp] (Function.update ino i ⟨type, 0, []⟩) s)
    (hkept : Kept refs ino) (hi : (ino i).type = 0) (hzero : i ≠ 0) (hdp : (ino dp).type = T_DIR)
    (hlt : (ino dp).nlink < 2 ^ 15) (ht : type ≠ 0) (hfind : ino.find dp name = none)
    : Ends (Fine dl nd)
        (fun a => a.2 = some i ∧ At (more refs i) [i] (ino.add dp i name (Graph.newInode type dp i)) a.1)
        (do
          let s := s.setIno i { s.ino i with nlink := 1 }
          let s ← if type = T_DIR then Sysfile.createDots ninodes room s dp i else .ok s
          let (s, r) ← dirlink ninodes room s dp name i
          if r < 0 then .error (.panic "create: dirlink")
          else
            let s ← Sysfile.iunlockput s dp
            return (s, some i)) := by
  have hne : dp ≠ i := by
    rintro rfl
    rw [hi] at hdp
    exact absurd hdp (by decide)
  have h1 : At (more (more refs dp) i) [i, dp] (Function.update ino i ⟨type, 1, []⟩)
      (s.setIno i { s.ino i with nlink := 1 }) := by
    have hset : At (more (more refs dp) i) [i, dp]
        (Function.update (Function.update ino i ⟨type, 0, []⟩) i ⟨type, 1, []⟩) (s.setIno i ⟨type, 1, []⟩) :=
      h.setIno List.mem_cons_self ht
    rw [Function.update_idem] at hset
    rw [h.2, Function.update_self]
    exact hset
  have hmid : Ends (Fine dl nd)
      (At (more (more refs dp) i) [i, dp] (ino.unnamed type dp i))
      (if type = T_DIR then Sysfile.createDots ninodes room (s.setIno i { s.ino i with nlink := 1 }) dp i
        else .ok (s.setIno i { s.ino i with nlink := 1 })) := by
    split
    . next heq =>
      subst heq
      have hdots : Ends (Fine dl nd) _ (Sysfile.createDots ninodes room _ dp i) := h1.createDots
        List.mem_cons_self (by simp) hne hzero (Function.update_self ..) (by rwa [Function.update_of_ne hne])
        (by rwa [Function.update_of_ne hne])
      apply hdots.mono
      intro s' h'
      unfold Graph.unnamed
      rw [Function.update_of_ne hne, Function.update_comm hne, Function.update_idem] at h'
      exact h'
    . next hdir =>
      have hnew : Graph.newInode type dp i = ⟨type, 1, []⟩ := by
        unfold Graph.newInode
        rw [if_neg hdir]
      have hself : Function.update (Function.update ino i (Graph.newInode type dp i)) dp
          { ino dp with nlink := (ino dp).nlink + 0 } = Function.update ino i ⟨type, 1, []⟩ := by
        rw [hnew, Function.update_comm hne.symm]
        congr 1
        exact Function.update_eq_self dp ino
      change At _ _ _ _
      unfold Graph.unnamed
      rw [if_neg hdir, hself]
      exact h1
  have hadd : Kept refs (ino.add dp i name (Graph.newInode type dp i)) :=
    hkept.add (by simp [Graph.newInode]) (by rw [hdp]; decide)
  have hrest : ∀ s2, At (more (more refs dp) i) [i, dp] (ino.unnamed type dp i) s2 →
      Ends (Fine dl nd)
        (fun a => a.2 = some i ∧ At (more refs i) [i] (ino.add dp i name (Graph.newInode type dp i)) a.1)
        (do
          let (s, r) ← dirlink ninodes room s2 dp name i
          if r < 0 then .error (.panic "create: dirlink")
          else
            let s ← Sysfile.iunlockput s dp
            return (s, some i)) := by
    intro s2 h2
    unfold Graph.unnamed at h2
    have hnone : Graph.find (ino.unnamed type dp i) dp name = none := by
      unfold Graph.find Graph.unnamed at *
      rwa [Function.update_self]
    apply (h2.dirlink_new (by simp) (by rwa [Function.update_self]) hnone i).bind
    rintro ⟨s3, r⟩ ⟨hr, h3⟩
    cases hr
    rw [Function.update_self, Function.update_idem] at h3
    have h3 : At (more (more refs i) dp) [dp, i] (ino.add dp i name (Graph.newInode type dp i)) s3 := by
      rw [more_comm]
      exact h3.swap
    exact (h3.iunlockput (by simpa using hne) (hadd.more i)).bind fun s4 h4 => ⟨rfl, h4⟩
  by_cases heq : type = T_DIR
  . rw [if_pos heq] at hmid
    dsimp only
    rw [if_pos heq]
    exact hmid.bind hrest
  . rw [if_neg heq] at hmid
    dsimp only
    rw [if_neg heq]
    exact hmid.bind hrest

theorem create (h : At refs [] ino s) (hr : Ready nd refs ino cwd) (hs : ino.Short) (ht : type ≠ 0)
    (path : List UInt8)
    : Ends (Fine dl nd)
        (fun a => a.2 = ino.created ninodes cwd path type ∧
          At (a.2.elim refs (more refs)) a.2.toList (ino.make ninodes cwd path type) a.1)
        (create ninodes room cwd path type s) := by
  unfold Sysfile.create Graph.created Graph.make Graph.room
  apply (h.nameiparent hr path).bind
  rintro ⟨s1, dp, name⟩ ⟨hgoal, hkey, h1⟩
  dsimp only at hgoal hkey h1 ⊢
  cases hdp : ino.nameiparent cwd path with
  | none =>
    rw [hdp] at hgoal
    rw [hgoal] at h1 ⊢
    exact ⟨rfl, h1⟩
  | some r =>
    obtain ⟨d, e⟩ := r
    rw [hdp] at hgoal hkey
    rw [hgoal] at h1 ⊢
    have hd := Graph.namex_parent hdp
    have hkey : key name = key e := hkey (d, e) rfl rfl
    have hpos : 0 < more refs d d := by
      rw [more_self]
      omega
    have hfind := Graph.find_congr (d := d) ino hkey
    rw [Option.bind_some]
    dsimp only
    rw [← hfind]
    apply (At.ilock h1 hpos List.not_mem_nil fun _ => by rw [hd]; decide).bind
    rintro s2 ⟨h2, -⟩
    apply (h2.dirlookup hd name).bind
    rintro ⟨s3, found⟩ ⟨hfound, h3⟩
    cases hj : findName (ino d).ents name with
    | some j =>
      rw [hj] at hfound
      cases hfound
      obtain ⟨de, hmem, hget, -, hinum, -⟩ := Graph.mem_of_findName hj
      have hsome : ino.find d name = some de.inum := by
        unfold Graph.find
        rw [hj, Option.map_some, hget]
      have h3 : At (more (more refs de.inum) d) [d] ino s3 := by
        rw [more_comm, ← hget]
        exact h3
      rw [hsome, Option.filter_some, if_neg (by dsimp only; rw [← hfind, hsome]; simp)]
      dsimp only
      rw [hget]
      apply (At.iunlockput h3 List.not_mem_nil (hr.kept.more de.inum)).bind
      intro s4 h4
      have hpos' : 0 < more refs de.inum de.inum := by
        rw [more_self]
        omega
      apply (At.ilock h4 hpos' List.not_mem_nil fun hn => hr.sound hn d hd de hmem hinum).bind
      rintro s5 ⟨h5, -⟩
      rw [h5.2]
      split
      . exact ⟨rfl, h5⟩
      . exact (h5.iunlockput List.not_mem_nil hr.kept).bind fun s6 h6 => ⟨rfl, h6⟩
    | none =>
      rw [hj] at hfound
      cases hfound
      have hnone : ino.find d name = none := by
        unfold Graph.find
        rw [hj]
        rfl
      have h3 : At (more refs d) [d] ino s3 := h3
      rw [hnone, Option.filter_some, if_pos (by dsimp only; rw [← hfind, hnone]; rfl)]
      dsimp only
      apply h3.ialloc ht
      intro s0 i s4 hi h4
      have hrange := ialloc_range hi
      rw [hi]
      apply (h4.createEntry hr.kept (ialloc_type hi) (by omega) hd (hs d) ht hnone).mono
      rintro ⟨s5, r⟩ ⟨hr', h5⟩
      dsimp only at hr' h5 ⊢
      subst hr'
      rw [Graph.add_congr ino hkey] at h5
      exact ⟨rfl, h5⟩

end At

end Xv6.Sysfile
