/-
  What `find_recursive` finds.

  The chains of entries below the root are those that are printed and those that should be. The
  paths on the screen are right exactly if they are a permutation of the paths of the latter
  (`findsExactly_iff_perm`). A name is at the front of what lies at it, so that paths that are put
  together wrongly are longer (`length_shownPath`), and only an entry of another name can make up
  for one that is missing (`find_exactly_iff`).
-/
import LossOs.Shell.Find
import Mathlib.Data.List.Perm.Subperm

namespace LossOs.Shell

open LossOs.Lib LossOs.Ext2

/-! ## What should be printed -/

/-- The path leads to the entry; behind a directory it has a slash. -/
def AbsolutePath (d : Disk) (e : Entry) (path : List UInt8) : Prop :=
  ∃ ns p, LeadsTo d ns p ∧ IsDirectory d p ∧ e ∈ entries d p ∧ Proper e ∧
    path = pathString (ns ++ [e.name]) ++ if e.fileType = 2 then [47] else []

/-- One path for each entry of the name, at any depth, which is its absolute path, and no others. -/
def FindsExactly (d : Disk) (t : List UInt8) (printed : List (List UInt8)) : Prop :=
  ∃ found : List Entry, found.Nodup ∧
    (∀ e, e ∈ found ↔ e.name = t ∧ ∃ path, AbsolutePath d e path) ∧
    List.Forall₂ (AbsolutePath d) found printed

/-- From directory `p` on the names of these entries are on the disk as they are. -/
def Spelled (d : Disk) : Nat → List Entry → Prop
  | _, [] => True
  | p, e :: c => spelling d p e = e.name ∧ Spelled d e.inode c

/-- Each entry of the name is reached, by names that are on the disk as they are; and entries of
    other names that match are not reached. -/
structure Findable (d : Disk) (target : Mem) (retCodes : Nat → BitVec 32) (t : List UInt8) :
    Prop where
  named : ∀ c e q, LeadsBy d (c ++ [e]) q → e.name = t →
    Reached retCodes d 1 (c ++ [e]) ∧ Spelled d 1 (c ++ [e])
  others : ∀ c e q, LeadsBy d (c ++ [e]) q → Matches target e → e.name ≠ t →
    ¬ Reached retCodes d 1 (c ++ [e])

/-- An entry of another name is printed as the path of an entry of the name. -/
def Mistaken (d : Disk) (target : Mem) (retCodes : Nat → BitVec 32) (t : List UInt8) : Prop :=
  ∃ c e q, LeadsBy d (c ++ [e]) q ∧ Matches target e ∧ e.name ≠ t ∧
    Reached retCodes d 1 (c ++ [e]) ∧
    ∃ a, a.name = t ∧ AbsolutePath d a (47 :: shownPath d 1 (c ++ [e]))

/-- The path of these entries. -/
def truePath (c : List Entry) : List UInt8 :=
  c.flatMap fun e => e.name ++ if e.fileType = 2 then [47] else []

/-- The entry that a chain leads to. -/
def lastEntry (c : List Entry) : Entry := c.getLast?.getD ⟨[], 0, 0⟩

@[simp] theorem lastEntry_concat (c : List Entry) (e : Entry) : lastEntry (c ++ [e]) = e := by
  unfold lastEntry
  rw [List.getLast?_concat]
  rfl

section Paths

variable {fs : Fs} {p q : Nat} {c c' : List Entry} {e : Entry} {path t : List UInt8}

/-- All entries on the way to a directory are directories. -/
theorem leads_fileType (ht : Tree fs)
    (h : LinkGraph.Leads Entry.inode Proper id (graphOf fs.disk) c p q)
    (hq : IsDirectory fs.disk q) : ∀ a ∈ c, a.fileType = 2 := by
  induction c generalizing p with
  | nil => nofun
  | cons a c ih =>
    obtain ⟨hp, ha, -, h⟩ := LinkGraph.leads_cons.mp h
    have hdir : IsDirectory fs.disk a.inode := by
      cases c with
      | nil =>
        obtain rfl : a.inode = q := h
        exact hq
      | cons b c => exact (LinkGraph.leads_cons.mp h).1
    exact List.forall_mem_cons.mpr ⟨(ht.sound.noDangling.isDir_iff hp ha).mp hdir, ih h⟩

/-- A path in front of whose names there are slashes has them also behind the directories. -/
theorem slashes (h : ∀ a ∈ c, a.fileType = 2) :
    (c.map Entry.name).flatMap (fun n => 47 :: n) ++ [47] = 47 :: truePath c := by
  induction c with
  | nil => rfl
  | cons a c ih =>
    obtain ⟨ha, hc⟩ := List.forall_mem_cons.mp h
    unfold truePath at ih ⊢
    rw [List.map_cons, List.flatMap_cons, List.append_assoc, ih hc, List.flatMap_cons, if_pos ha,
      List.append_assoc]
    rfl

theorem pathString_concat (ns : List (List UInt8)) (n : List UInt8) :
    pathString (ns ++ [n]) = ns.flatMap (fun n => 47 :: n) ++ [47] ++ n := by
  have hne : pathString (ns ++ [n]) = (ns ++ [n]).flatMap fun n => 47 :: n := by
    cases ns with
    | nil => rfl
    | cons m ns => rfl
  rw [hne, List.flatMap_append, List.append_assoc]
  simp

theorem truePath_concat (c : List Entry) (e : Entry) :
    truePath (c ++ [e]) = truePath c ++ (e.name ++ if e.fileType = 2 then [47] else []) := by
  unfold truePath
  rw [List.flatMap_append]
  simp

/-- The absolute paths are those of the chains. -/
theorem absolutePath_iff (ht : Tree fs) : AbsolutePath fs.disk e path ↔
    ∃ c q, LeadsBy fs.disk (c ++ [e]) q ∧ path = 47 :: truePath (c ++ [e]) := by
  have hpath : ∀ {c p}, LeadsBy fs.disk c p → IsDirectory fs.disk p →
      pathString (c.map Entry.name ++ [e.name]) ++ (if e.fileType = 2 then [47] else []) =
        47 :: truePath (c ++ [e]) := by
    intro c p hc hp
    rw [pathString_concat, slashes (leads_fileType ht hc hp), truePath_concat, List.append_assoc]
    rfl
  constructor
  · rintro ⟨ns, p, hns, hp, he, hP, rfl⟩
    obtain ⟨c, rfl, hc⟩ := hns.chain
    exact ⟨c, e.inode, LinkGraph.leads_concat.mpr ⟨p, hc, hp, he, hP, rfl⟩, hpath hc hp⟩
  · rintro ⟨c, q, hc, rfl⟩
    obtain ⟨p, hc, hp, he, hP, -⟩ := LinkGraph.leads_concat.mp hc
    exact ⟨c.map Entry.name, p, hc.keys, hp, he, hP, (hpath hc hp).symm⟩

/-- One chain leads to an entry. -/
theorem chain_unique (ht : Tree fs) {q q' : Nat} (h : LeadsBy fs.disk (c ++ [e]) q)
    (h' : LeadsBy fs.disk (c' ++ [e]) q') : c = c' := by
  obtain ⟨p, hc, hp, he, hP, -⟩ := LinkGraph.leads_concat.mp h
  obtain ⟨p', hc', hp', he', hP', -⟩ := LinkGraph.leads_concat.mp h'
  obtain ⟨rfl, -⟩ := ht.entry_unique hp he hP hp' he' hP' rfl
  apply hc.unique hc' ht.sound.once
  intro p hchild
  obtain ⟨hp, a, ha, hPa, he⟩ := hchild
  exact ht.sound.rooted.proper p hp a ha hPa.1 hPa.2 he

end Paths

/-! ## The paths as a list -/

/-- The chains that lead to an entry of the name. -/
noncomputable def namedChains (d : Disk) (n : Nat) (t : List UInt8) : List (List Entry) :=
  (LinkGraph.chains Entry.inode Proper (graphOf d) n 1).filter fun c => (lastEntry c).name = t

theorem forall₂_eq_map {α β : Type} {R : α → β → Prop} {f : α → β} {l : List α} {l' : List β}
    (h : List.Forall₂ R l l') (hf : ∀ a ∈ l, ∀ b, R a b → b = f a) : l' = l.map f := by
  induction h with
  | nil => rfl
  | cons hab _ ih =>
    obtain ⟨ha, hl⟩ := List.forall_mem_cons.mp hf
    rw [List.map_cons, ih hl, ha _ hab]

section Named

variable {fs : Fs} {n : Nat} {c : List Entry} {e : Entry} {t : List UInt8} {L : List (List UInt8)}

theorem mem_rootChains (htall : LinkGraph.Tall Entry.inode Proper (graphOf fs.disk) n 1) :
    c ∈ LinkGraph.chains Entry.inode Proper (graphOf fs.disk) (n + 1) 1 ↔
      ∃ c' e q, c = c' ++ [e] ∧ LeadsBy fs.disk (c' ++ [e]) q := by
  rw [LinkGraph.mem_chains htall]
  constructor
  · rintro ⟨hne, q, hq⟩
    obtain ⟨c', e, rfl⟩ := (List.eq_nil_or_concat c).resolve_left hne
    rw [List.concat_eq_append] at hq ⊢
    exact ⟨c', e, q, rfl, hq⟩
  · rintro ⟨c', e, q, rfl, hq⟩
    exact ⟨by simp, q, hq⟩

theorem mem_namedChains (htall : LinkGraph.Tall Entry.inode Proper (graphOf fs.disk) n 1) :
    c ∈ namedChains fs.disk (n + 1) t ↔
      ∃ c' e q, c = c' ++ [e] ∧ LeadsBy fs.disk (c' ++ [e]) q ∧ e.name = t := by
  unfold namedChains
  rw [List.mem_filter, mem_rootChains htall, decide_eq_true_iff]
  constructor
  · rintro ⟨⟨c', e, q, rfl, hq⟩, ht⟩
    rw [lastEntry_concat] at ht
    exact ⟨c', e, q, rfl, hq, ht⟩
  · rintro ⟨c', e, q, rfl, hq, ht⟩
    exact ⟨⟨c', e, q, rfl, hq⟩, by rwa [lastEntry_concat]⟩

theorem nodup_rootChains (ht : Tree fs) :
    (LinkGraph.chains Entry.inode Proper (graphOf fs.disk) n 1).Nodup := by
  refine LinkGraph.nodup_chains fun p hp => (ht.sound.once.here p hp).imp ?_
  rintro a b h hPa hPb rfl
  exact h hPa hPb rfl

/-- Each of the entries is the last one of one of the chains. -/
theorem nodup_lastEntry (ht : Tree fs)
    (htall : LinkGraph.Tall Entry.inode Proper (graphOf fs.disk) n 1) :
    ((namedChains fs.disk (n + 1) t).map lastEntry).Nodup := by
  refine List.Nodup.map_on ?_ ((nodup_rootChains ht).filter _)
  intro c hc c' hc' heq
  obtain ⟨c, e, q, rfl, hq, -⟩ := (mem_namedChains htall).mp hc
  obtain ⟨c', e', q', rfl, hq', -⟩ := (mem_namedChains htall).mp hc'
  rw [lastEntry_concat, lastEntry_concat] at heq
  obtain rfl : e = e' := heq
  rw [chain_unique ht hq hq']

theorem mem_lastEntry (ht : Tree fs)
    (htall : LinkGraph.Tall Entry.inode Proper (graphOf fs.disk) n 1) :
    e ∈ (namedChains fs.disk (n + 1) t).map lastEntry ↔
      e.name = t ∧ ∃ path, AbsolutePath fs.disk e path := by
  rw [List.mem_map]
  constructor
  · rintro ⟨c, hc, rfl⟩
    obtain ⟨c, e, q, rfl, hq, hn⟩ := (mem_namedChains htall).mp hc
    rw [lastEntry_concat]
    exact ⟨hn, _, (absolutePath_iff ht).mpr ⟨c, q, hq, rfl⟩⟩
  · rintro ⟨hn, path, hpath⟩
    obtain ⟨c, q, hq, -⟩ := (absolutePath_iff ht).mp hpath
    exact ⟨c ++ [e], (mem_namedChains htall).mpr ⟨c, e, q, rfl, hq, hn⟩, lastEntry_concat c e⟩

/-- The paths are right exactly if they are those of the chains, in some order. -/
theorem findsExactly_iff_perm (ht : Tree fs)
    (htall : LinkGraph.Tall Entry.inode Proper (graphOf fs.disk) n 1) : FindsExactly fs.disk t L ↔
      L.Perm ((namedChains fs.disk (n + 1) t).map fun c => 47 :: truePath c) := by
  have hpath : ∀ c ∈ namedChains fs.disk (n + 1) t, ∀ path,
      AbsolutePath fs.disk (lastEntry c) path ↔ path = 47 :: truePath c := by
    intro c hc path
    obtain ⟨c, e, q, rfl, hq, -⟩ := (mem_namedChains htall).mp hc
    rw [lastEntry_concat, absolutePath_iff ht]
    constructor
    · rintro ⟨c', q', hq', rfl⟩
      rw [chain_unique ht hq hq']
    · rintro rfl
      exact ⟨c, q, hq, rfl⟩
  constructor
  · rintro ⟨found, hnodup, hmem, hall⟩
    have hfound : ((namedChains fs.disk (n + 1) t).map lastEntry).Perm found :=
      (List.perm_ext_iff_of_nodup (nodup_lastEntry ht htall) hnodup).mpr fun e =>
        (mem_lastEntry ht htall).trans (hmem e).symm
    obtain ⟨L', hL', hperm⟩ := List.perm_comp_forall₂ hfound hall
    have heq := forall₂_eq_map (List.forall₂_map_left_iff.mp hL')
      fun c hc path => (hpath c hc path).mp
    rw [heq] at hperm
    exact hperm.symm
  · intro hperm
    have hall : List.Forall₂ (flip (AbsolutePath fs.disk))
        ((namedChains fs.disk (n + 1) t).map fun c => 47 :: truePath c)
        ((namedChains fs.disk (n + 1) t).map lastEntry) := by
      rw [List.forall₂_map_left_iff, List.forall₂_map_right_iff, List.forall₂_same]
      exact fun c hc => (hpath c hc _).mpr rfl
    obtain ⟨found, hfound, hpermf⟩ := List.perm_comp_forall₂ hperm hall
    refine ⟨found, hpermf.nodup_iff.mpr (nodup_lastEntry ht htall), fun e => ?_, hfound.flip⟩
    rw [hpermf.mem_iff, mem_lastEntry ht htall]

end Named

/-! ## The lengths of the paths -/

section Lengths

variable {fs : Fs} {d : Disk} {p q : Nat} {c : List Entry} {e : Entry} {s : List UInt8}

theorem zero_notMem_shownPath (d : Disk) (p : Nat) (c : List Entry) : 0 ∉ shownPath d p c := by
  induction c generalizing p with
  | nil => exact List.not_mem_nil
  | cons e c ih =>
    have hs := zero_notMem_spelling d p e
    unfold shownPath pathStep
    rw [List.mem_append, List.mem_append, not_or, not_or]
    refine ⟨⟨hs, ?_⟩, ih e.inode⟩
    split
    · decide
    · exact List.not_mem_nil

/-- Where the names are on the disk as they are, the path is the right one. -/
theorem Spelled.shownPath (h : Spelled d p c) : shownPath d p c = truePath c := by
  induction c generalizing p with
  | nil => rfl
  | cons e c ih =>
    obtain ⟨he, hc⟩ := h
    have hstep : pathStep e e.name = e.name ++ if e.fileType = 2 then [47] else [] := by
      simp [pathStep]
    unfold LossOs.Shell.shownPath
    rw [he, hstep, ih hc]
    rfl

/-- A step with more than the name makes the path longer, even if there is no slash for it. -/
theorem length_pathStep (h : e.name <+: s) :
    (e.name ++ if e.fileType = 2 then [47] else []).length ≤ (pathStep e s).length ∧
      ((pathStep e s).length ≤ (e.name ++ if e.fileType = 2 then [47] else []).length →
        s = e.name) := by
  have hle := h.length_le
  unfold pathStep
  rw [List.length_append, List.length_append]
  by_cases hd : e.fileType = 2
  · by_cases hs : s.length ≤ e.name.length + 3
    · rw [if_pos hd, if_pos ⟨hd, hs⟩]
      exact ⟨by omega, fun hge => (h.eq_of_length (by omega)).symm⟩
    · rw [if_pos hd, if_neg fun h => hs h.2, List.length_singleton, List.length_nil]
      exact ⟨by omega, fun hge => by omega⟩
  · rw [if_neg hd, if_neg fun h => hd h.1]
    exact ⟨by omega, fun hge => (h.eq_of_length (by omega)).symm⟩

/-- The path that is put together is at least as long as the right one, and as long only if the
    names are on the disk as they are. -/
theorem length_shownPath (ht : Tree fs)
    (h1 : ∀ p, IsDirectory fs.disk p → iBlocks (slot fs.disk p) = 1)
    (h : LinkGraph.Leads Entry.inode Proper id (graphOf fs.disk) c p q) (h0 : 0 ∉ truePath c) :
    (truePath c).length ≤ (shownPath fs.disk p c).length ∧
      ((shownPath fs.disk p c).length ≤ (truePath c).length → Spelled fs.disk p c) := by
  induction c generalizing p with
  | nil => exact ⟨Nat.le_refl _, fun _ => trivial⟩
  | cons e c ih =>
    obtain ⟨hp, he, hP, hc⟩ := LinkGraph.leads_cons.mp h
    have htrue : truePath (e :: c) =
        (e.name ++ if e.fileType = 2 then [47] else []) ++ truePath c :=
      List.flatMap_cons
    have hshown : (shownPath fs.disk p (e :: c)).length =
        (pathStep e (spelling fs.disk p e)).length + (shownPath fs.disk e.inode c).length :=
      List.length_append
    rw [htrue, List.mem_append, List.mem_append, not_or, not_or] at h0
    obtain ⟨⟨hname, -⟩, h0⟩ := h0
    obtain ⟨hle, heq⟩ := length_pathStep (prefix_spelling ht hp (h1 p hp) he hP hname)
    obtain ⟨hle', heq'⟩ := ih hc h0
    rw [htrue, hshown, List.length_append]
    exact ⟨by omega, fun hge => ⟨heq (by omega), heq' (by omega)⟩⟩

theorem sums_le {α : Type} {l : List α} {f g : α → Nat} (h : ∀ a ∈ l, g a ≤ f a) :
    (l.map g).sum ≤ (l.map f).sum ∧
      ((l.map f).sum ≤ (l.map g).sum → ∀ a ∈ l, f a ≤ g a) := by
  induction l with
  | nil => exact ⟨Nat.le_refl _, fun _ => nofun⟩
  | cons a l ih =>
    obtain ⟨ha, hl⟩ := List.forall_mem_cons.mp h
    obtain ⟨hle, heq⟩ := ih hl
    rw [List.map_cons, List.map_cons, List.sum_cons, List.sum_cons]
    exact ⟨by omega, fun hge => List.forall_mem_cons.mpr ⟨by omega, heq (by omega)⟩⟩

/-- Of lists of strings that are permutations of each other, none is pointwise longer. -/
theorem perm_lengths {α : Type} {V X : List α} {f g : α → List UInt8} (hV : V.Nodup) (hsub : V ⊆ X)
    (hperm : (V.map f).Perm (X.map g)) (hle : ∀ a ∈ V, (g a).length ≤ (f a).length) :
    X ⊆ V ∧ ∀ a ∈ V, (f a).length ≤ (g a).length := by
  have hlen := hperm.length_eq
  rw [List.length_map, List.length_map] at hlen
  have hVX : V.Perm X := (List.subperm_of_subset hV hsub).perm_of_length_le (Nat.le_of_eq hlen.symm)
  have hsum : (V.map fun a => (f a).length).sum = (V.map fun a => (g a).length).sum := by
    have h1 := ((hperm.trans (hVX.map g).symm).map List.length).sum_eq
    rwa [List.map_map, List.map_map] at h1
  exact ⟨hVX.symm.subset, (sums_le hle).2 (Nat.le_of_eq hsum)⟩

end Lengths

/-! ## The result -/

section Result

variable {fs : Fs} {n : Nat} {target : Mem} {retCodes : Nat → BitVec 32} {t : List UInt8}

theorem matches_name (h : IsString target t) {e : Entry} (he : e.name = t) : Matches target e := by
  unfold Matches
  rw [he]
  apply List.ext_getElem (length_bytes _ _ _)
  intro j h1 h2
  have hj := (holds_iff.mp h.holds).1 j h2
  rw [← byte_eq_getElem (rfl : bytes target 0 t.length = _) h1, Nat.zero_add, hj]

theorem printed_concat {p : Nat} {d : Disk} {c : List Entry} {e : Entry} :
    Printed target retCodes d p (c ++ [e]) ↔ Reached retCodes d p (c ++ [e]) ∧
      Matches target e := by
  unfold Printed
  rw [List.getLast?_concat]
  refine and_congr_right fun _ => ⟨?_, fun h => ⟨e, rfl, h⟩⟩
  rintro ⟨e', he, hm⟩
  obtain rfl : e = e' := Option.some.inj he
  exact hm

/-- Where an entry can be found and no other one is, the paths are right. -/
theorem Findable.exactly (h : Findable fs.disk target retCodes t) (ht : Tree fs)
    (htall : LinkGraph.Tall Entry.inode Proper (graphOf fs.disk) n 1) (hs : IsString target t) :
    FindsExactly fs.disk t (foundPaths target retCodes fs.disk (n + 1) 1 [47]) := by
  have hnamed : ∀ c ∈ LinkGraph.chains Entry.inode Proper (graphOf fs.disk) (n + 1) 1,
      Printed target retCodes fs.disk 1 c ↔ (lastEntry c).name = t := by
    intro c hc
    obtain ⟨c, e, q, rfl, hq⟩ := (mem_rootChains htall).mp hc
    rw [printed_concat, lastEntry_concat]
    constructor
    · rintro ⟨hr, hm⟩
      by_contra hne
      exact h.others c e q hq hm hne hr
    · intro hn
      exact ⟨(h.named c e q hq hn).1, matches_name hs hn⟩
  rw [findsExactly_iff_perm ht htall]
  unfold foundPaths
  rw [List.filter_congr fun c hc => decide_eq_decide.mpr (hnamed c hc)]
  refine List.Perm.of_eq (List.map_congr_left fun c hc => ?_)
  obtain ⟨c, e, q, rfl, hq, hn⟩ := (mem_namedChains htall).mp hc
  rw [(h.named c e q hq hn).2.shownPath]
  rfl

/-- Paths that are right, none of them by mistake, need what can be found. -/
theorem FindsExactly.findable
    (h : FindsExactly fs.disk t (foundPaths target retCodes fs.disk (n + 1) 1 [47]))
    (hno : ¬ Mistaken fs.disk target retCodes t) (ht : Tree fs)
    (h1 : ∀ p, IsDirectory fs.disk p → iBlocks (slot fs.disk p) = 1)
    (htall : LinkGraph.Tall Entry.inode Proper (graphOf fs.disk) n 1) :
    Findable fs.disk target retCodes t := by
  have hperm := (findsExactly_iff_perm ht htall).mp h
  unfold foundPaths at hperm
  generalize hV : (LinkGraph.chains Entry.inode Proper (graphOf fs.disk) (n + 1) 1).filter
    (fun c => Printed target retCodes fs.disk 1 c) = V at hperm
  have hmem : ∀ {c}, c ∈ V ↔ ∃ c' e q, c = c' ++ [e] ∧ LeadsBy fs.disk (c' ++ [e]) q ∧
      Reached retCodes fs.disk 1 (c' ++ [e]) ∧ Matches target e := by
    intro c
    rw [← hV, List.mem_filter, mem_rootChains htall, decide_eq_true_iff]
    constructor
    · rintro ⟨⟨c', e, q, rfl, hq⟩, hpr⟩
      exact ⟨c', e, q, rfl, hq, printed_concat.mp hpr⟩
    · rintro ⟨c', e, q, rfl, hq, hpr⟩
      exact ⟨⟨c', e, q, rfl, hq⟩, printed_concat.mpr hpr⟩
  have hnodup : V.Nodup := by
    rw [← hV]
    exact (nodup_rootChains ht).filter _
  -- an entry of another name would be a mistake
  have hsub : V ⊆ namedChains fs.disk (n + 1) t := by
    intro c hc
    obtain ⟨c', e, q, rfl, hq, hr, hm⟩ := hmem.mp hc
    by_contra hnot
    have hne : e.name ≠ t := fun hn => hnot ((mem_namedChains htall).mpr ⟨c', e, q, rfl, hq, hn⟩)
    obtain ⟨u, hu, hpath⟩ := List.mem_map.mp (hperm.mem_iff.mp (List.mem_map.mpr ⟨_, hc, rfl⟩))
    obtain ⟨u', a, q', rfl, hq', ha⟩ := (mem_namedChains htall).mp hu
    exact hno ⟨c', e, q, hq, hm, hne, hr, a, ha,
      (absolutePath_iff ht).mpr ⟨u', q', hq', hpath.symm⟩⟩
  -- a path that is printed has no NUL
  have hnul : ∀ c ∈ namedChains fs.disk (n + 1) t, 0 ∉ truePath c := by
    intro c hc h0
    obtain ⟨v, -, hpath⟩ := List.mem_map.mp (hperm.mem_iff.mpr (List.mem_map.mpr ⟨c, hc, rfl⟩))
    have hv : 0 ∈ [47] ++ shownPath fs.disk 1 v := by
      rw [hpath]
      exact List.mem_cons_of_mem 47 h0
    rcases List.mem_append.mp hv with h47 | hv
    · revert h47
      decide
    · exact zero_notMem_shownPath _ _ _ hv
  have hlen : ∀ c ∈ namedChains fs.disk (n + 1) t,
      (truePath c).length ≤ (shownPath fs.disk 1 c).length ∧
        ((shownPath fs.disk 1 c).length ≤ (truePath c).length → Spelled fs.disk 1 c) := by
    intro c hc
    have h0 := hnul c hc
    obtain ⟨c', e, q, rfl, hq, -⟩ := (mem_namedChains htall).mp hc
    exact length_shownPath ht h1 hq h0
  obtain ⟨hsup, hge⟩ := perm_lengths hnodup hsub hperm fun c hc =>
    Nat.succ_le_succ (hlen c (hsub hc)).1
  refine ⟨fun c e q hq hn => ?_, fun c e q hq hm hne hr => ?_⟩
  · have hX := (mem_namedChains htall).mpr ⟨c, e, q, rfl, hq, hn⟩
    have hVc := hsup hX
    obtain ⟨c', e', q', heq, -, hr, -⟩ := hmem.mp hVc
    rw [← heq] at hr
    exact ⟨hr, (hlen _ hX).2 (Nat.le_of_succ_le_succ (hge _ hVc))⟩
  · have hX := hsub (hmem.mpr ⟨c, e, q, rfl, hq, hr, hm⟩)
    obtain ⟨c', e', q', heq, -, hn⟩ := (mem_namedChains htall).mp hX
    obtain ⟨-, he⟩ := List.append_inj' heq rfl
    obtain rfl : e = e' := (List.cons.inj he).1
    exact hne hn

/-- `find_recursive` returns, and the paths on the screen are those of the entries of the name, none
    of them by mistake, exactly if these can be found and no others. -/
theorem find_exactly_iff {m : Machine} (ht : Tree m.fs)
    (h1 : ∀ p, IsDirectory m.fs.disk p → iBlocks (slot m.fs.disk p) = 1) (hs : IsString target t)
    (retCodes : Nat → BitVec 32) : ∃ n, ∀ depth, n < depth → ∃ m' screen,
      Program.run answerFind (findRecursive target retCodes depth 1 [47]) (m, []) =
        (some (), (m', screen)) ∧
      (FindsExactly m.fs.disk t (paths screen) ∧ ¬ Mistaken m.fs.disk target retCodes t ↔
        Findable m.fs.disk target retCodes t) := by
  obtain ⟨n, htall⟩ := ht.tall
  refine ⟨n, fun depth hdepth => ?_⟩
  obtain ⟨k, rfl⟩ : ∃ k, depth = k + 1 := ⟨depth - 1, by omega⟩
  have htallk := (htall 1).mono (by omega : n ≤ k)
  obtain ⟨m', screen, hrun, -, -, hpaths⟩ :=
    @findRecursive_prints target retCodes m.fs k 1 [47] ht h1
    ht.sound.noDangling.root htallk rfl m [] ht rfl
  refine ⟨m', screen, hrun, ?_⟩
  rw [hpaths]
  constructor
  · rintro ⟨h, hno⟩
    exact h.findable hno ht h1 htallk
  · intro h
    refine ⟨h.exactly ht htallk hs, ?_⟩
    rintro ⟨c, e, q, hq, hm, hne, hr, -⟩
    exact h.others c e q hq hm hne hr

end Result

/-! ## `/bin` -/

/-- A target, with zeros behind it. -/
def targetOf (s : List UInt8) : Mem := fun k => s.getD k 0

theorem isString_targetOf {s : List UInt8} (h : 0 ∉ s) : IsString (targetOf s) s :=
  ⟨h, holds_iff.mpr ⟨fun _ hj => List.getD_eq_getElem s 0 hj,
    List.getD_eq_default s 0 (Nat.le_refl _)⟩⟩

/-- `bin` in the root directory. -/
def binEntry : Entry := ⟨[98, 105, 110], 2, 2⟩

/-- A root directory with `bin`, which is empty and whose name is on the disk as it is. -/
structure OnlyBin (fs : Fs) : Prop where
  tree : Tree fs
  one : ∀ p, IsDirectory fs.disk p → iBlocks (slot fs.disk p) = 1
  chain : LeadsBy fs.disk [binEntry] 2
  only : ∀ c e q, LeadsBy fs.disk (c ++ [e]) q → c = [] ∧ e = binEntry
  spelled : spelling fs.disk 1 binEntry = [98, 105, 110]

/-- There is no way down from an empty directory. -/
theorem leads_from_empty {d : Disk} {p q : Nat} {c : List Entry} (h : proper d p = [])
    (hc : LinkGraph.Leads Entry.inode Proper id (graphOf d) c p q) : c = [] := by
  cases c with
  | nil => rfl
  | cons a c =>
    obtain ⟨-, ha, hP, -⟩ := LinkGraph.leads_cons.mp hc
    rw [graphOf_links] at ha
    have hmem := mem_proper.mpr ⟨ha, hP⟩
    rw [h] at hmem
    cases hmem

theorem onlyBin : OnlyBin binFs := by
  obtain ⟨hroot, b, hb⟩ := binFs_rootBlock
  obtain ⟨ht, hdir, hbin, -⟩ := binFs_root
  have hend : (binFs.disk 21).mem 36 = 0 := by decide +kernel
  generalize binFs = fs at hroot hb ht hdir hbin hend ⊢
  have hone : ∀ p, IsDirectory fs.disk p → iBlocks (slot fs.disk p) = 1 := by
    intro p hp
    have hused := hroot.inodes p hp.isInode
    rw [hp.used] at hused
    have hp12 : p = 2 ∨ p = 1 := by simpa using hused.symm
    rcases hp12 with rfl | rfl
    · exact hb.iBlocks_eq ht hp
    · exact hroot.iBlocks_eq
  have hempty : proper fs.disk 2 = [] := by
    unfold proper
    rw [hb.entries_eq]
    decide
  have hproper : proper fs.disk 1 = [binEntry] := by
    unfold proper
    rw [hroot.entries_eq]
    decide
  have hmem : ∀ e, e ∈ entries fs.disk 1 → Proper e → e = binEntry := by
    intro e he hP
    have := mem_proper.mpr ⟨he, hP⟩
    rw [hproper] at this
    exact List.mem_singleton.mp this
  have hbinmem : binEntry ∈ entries fs.disk 1 ∧ Proper binEntry := by
    apply mem_proper.mp
    rw [hproper]
    exact List.mem_singleton_self _
  refine ⟨ht, hone, LinkGraph.leads_cons.mpr ⟨hdir, hbinmem.1, hbinmem.2, rfl⟩, ?_, ?_⟩
  · intro c e q h
    cases c with
    | nil =>
      obtain ⟨-, he, hP, -⟩ := LinkGraph.leads_cons.mp h
      exact ⟨rfl, hmem e he hP⟩
    | cons a c =>
      obtain ⟨-, ha, hPa, hrest⟩ := LinkGraph.leads_cons.mp h
      obtain rfl := hmem a ha hPa
      have hnil : c ++ [e] = [] := leads_from_empty hempty hrest
      exact absurd hnil (by simp)
  · obtain ⟨-, -, -, post, r, ys, hblocks, -⟩ := ht.first_block hdir
    rw [hroot.blocks] at hblocks
    have hblock : iBlock (slot fs.disk 1) 0 = 21 := (List.cons.inj hblocks).1.symm
    have hrec : (⟨24, 2, 488, [98, 105, 110], 2⟩ : Rec) ∈ firstRecords fs.disk 1 := by
      unfold firstRecords
      rw [hblock, hroot.records]
      decide
    have hspell := spelling_eq ht hdir (hone 1 hdir) hrec (by decide) hbinmem.2
    obtain ⟨hname, -⟩ := record_listed ht hdir (hone 1 hdir) hrec
    have hzero : oneListing fs.disk 1 36 = 0 := by
      unfold oneListing
      rw [if_pos (by decide), hblock]
      exact hend
    rw [stringFrom_name hname (by decide) (by decide) hzero] at hspell
    exact (Option.some.inj hspell).symm

section OnlyBin

variable {fs : Fs}

/-- What `find_recursive` prints where there is only `bin`: its path, when it matches. -/
theorem OnlyBin.reached (h : OnlyBin fs) : Reached (fun _ => 0) fs.disk 1 [binEntry] := by
  refine ⟨rfl, ?_, trivial⟩
  rw [h.spelled]
  unfold Entered
  decide

/-- The target `bin` is found. -/
theorem OnlyBin.findable (h : OnlyBin fs) :
    Findable fs.disk (targetOf [98, 105, 110]) (fun _ => 0) [98, 105, 110] := by
  refine ⟨fun c e q hq _ => ?_, fun c e q hq _ hne => ?_⟩
  · obtain ⟨rfl, rfl⟩ := h.only c e q hq
    exact ⟨h.reached, h.spelled, trivial⟩
  · obtain ⟨rfl, rfl⟩ := h.only c e q hq
    exact absurd rfl hne

end OnlyBin

theorem find_exactly_bin : ∃ n, ∀ depth, n < depth → ∃ m' screen,
    Program.run answerFind (findRecursive (targetOf [98, 105, 110]) (fun _ => 0) depth 1 [47])
        (Machine.zeros binFs, []) = (some (), (m', screen)) ∧
      FindsExactly binFs.disk [98, 105, 110] (paths screen) := by
  have h := onlyBin
  generalize binFs = fs at h ⊢
  obtain ⟨n, hn⟩ := @find_exactly_iff (targetOf [98, 105, 110]) [98, 105, 110] (Machine.zeros fs)
    h.tree h.one (isString_targetOf (by decide)) fun _ => 0
  refine ⟨n, fun depth hdepth => ?_⟩
  obtain ⟨m', screen, hrun, hiff⟩ := hn depth hdepth
  exact ⟨m', screen, hrun, (hiff.mpr h.findable).1⟩

/-- For the target `binx` the path of `bin` is printed, though nothing has the name `binx`. -/
theorem find_prefix : IsString (targetOf [98, 105, 110, 120]) [98, 105, 110, 120] ∧
    (∀ p, IsDirectory binFs.disk p → iBlocks (slot binFs.disk p) = 1) ∧
    ∃ n, ∀ depth, n < depth → ∃ m' screen,
      Program.run answerFind
        (findRecursive (targetOf [98, 105, 110, 120]) (fun _ => 0) depth 1 [47])
          (Machine.zeros binFs, []) = (some (), (m', screen)) ∧
        [47, 98, 105, 110, 47] ∈ paths screen ∧
        ¬ FindsExactly binFs.disk [98, 105, 110, 120] (paths screen) := by
  have h := onlyBin
  generalize binFs = fs at h ⊢
  obtain ⟨n, htall⟩ := h.tree.tall
  refine ⟨isString_targetOf (by decide), h.one, n, fun depth hdepth => ?_⟩
  obtain ⟨k, rfl⟩ : ∃ k, depth = k + 1 := ⟨depth - 1, by omega⟩
  have htallk := (htall 1).mono (by omega : n ≤ k)
  obtain ⟨m', screen, hrun, -, -, hpaths⟩ :=
    @findRecursive_prints (targetOf [98, 105, 110, 120]) (fun _ => 0) fs k 1 [47] h.tree h.one
      h.tree.sound.noDangling.root htallk rfl (Machine.zeros fs) [] h.tree rfl
  have hmem : [47, 98, 105, 110, 47] ∈ paths screen := by
    rw [hpaths]
    refine List.mem_map.mpr ⟨[binEntry], List.mem_filter.mpr ⟨?_, decide_eq_true ?_⟩, ?_⟩
    · exact (mem_rootChains htallk).mpr ⟨[], binEntry, 2, rfl, h.chain⟩
    · exact (printed_concat (c := [])).mpr ⟨h.reached, by decide⟩
    · unfold shownPath
      rw [h.spelled]
      rfl
  refine ⟨m', screen, hrun, hmem, fun hex => ?_⟩
  have hperm := (findsExactly_iff_perm h.tree htallk).mp hex
  obtain ⟨c, hc, -⟩ := List.mem_map.mp (hperm.mem_iff.mp hmem)
  obtain ⟨c', e, q, rfl, hq, hn⟩ := (mem_namedChains htallk).mp hc
  obtain ⟨-, rfl⟩ := h.only c' e q hq
  exact absurd hn (by decide)

end LossOs.Shell
