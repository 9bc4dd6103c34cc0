/-
  Each process has a memory of its own.

  `spacesOf` reads the private memories off the machine: of each directory the pages it maps for
  user mode, with what lies in their frames. No frame is mapped twice, so an access is one of the
  private memory; a frame that is handed out has not been written since the boot, for frames are
  never given back. `Machine.Sound.step` is one step, `memories_private` the run: all that
  programs can observe is a run of `Spaces`. `memory_own_stores` says what the memory of a process
  is: what its own stores have made of it, whatever else has happened.
-/
import LossOs.Lib.Mapped
import LossOs.Lib.Simulation
import LossOs.Kernel.Admission
import LossOs.Kernel.Memory

namespace LossOs.Kernel

open LossOs.Lib

variable {k k' : KernelState} {pg pg' : Paging} {p : PageDirPtr} {key : PageKey} {d i : Fin 32}
  {j : Fin 1024} {e : PageDirectoryEntry} {f : BitVec 10} {buf : UInt32}

/-! ## The mapping of a page table -/

/-- The entry for user mode that a page has in one of the kernel's directories. -/
def Paging.userEntry (pg : Paging) (key : PageKey) : Option PageDirectoryEntry :=
  match key.1 with
  | .addr _ => none
  | p => if (pg.directory p key.2).User then some (pg.directory p key.2) else none

/-- The frame behind a page. -/
def Paging.frames (pg : Paging) (key : PageKey) : Option (BitVec 10) :=
  (pg.userEntry key).map PageDirectoryEntry.lowerAddress

theorem userEntry_eq (hp : p.Known) : pg.userEntry (p, j) =
    if (pg.directory p j).User then some (pg.directory p j) else none := by
  rcases hp with rfl | ⟨i, rfl⟩ <;> rfl

theorem userEntry_eq_some : pg.userEntry key = some e ↔
    key.1.Known ∧ e.User ∧ pg.directory key.1 key.2 = e := by
  obtain ⟨p, j⟩ := key
  cases p with
  | addr a =>
    refine iff_of_false nofun ?_
    rintro ⟨hc | ⟨i, hc⟩, -⟩ <;> cases hc
  | kernel =>
    rw [userEntry_eq (Or.inl rfl), Option.ite_none_right_eq_some, Option.some.injEq]
    refine ⟨fun ⟨hu, he⟩ => ⟨Or.inl rfl, he ▸ hu, he⟩, fun ⟨_, hu, he⟩ => ⟨?_, he⟩⟩
    rw [he]
    exact hu
  | list i =>
    rw [userEntry_eq (Or.inr ⟨i, rfl⟩), Option.ite_none_right_eq_some, Option.some.injEq]
    refine ⟨fun ⟨hu, he⟩ => ⟨Or.inr ⟨i, rfl⟩, he ▸ hu, he⟩, fun ⟨_, hu, he⟩ => ⟨?_, he⟩⟩
    rw [he]
    exact hu

theorem userEntry_eq_none (h : ¬ (pg.directory p j).User) : pg.userEntry (p, j) = none := by
  by_contra hne
  obtain ⟨e, he⟩ := Option.ne_none_iff_exists'.mp hne
  obtain ⟨-, hu, rfl⟩ := userEntry_eq_some.mp he
  exact h hu

theorem frames_eq_some : pg.frames key = some f ↔
    ∃ e, pg.userEntry key = some e ∧ e.lowerAddress = f := Option.map_eq_some_iff

theorem frames_eq_none : pg.frames key = none ↔ pg.userEntry key = none := Option.map_eq_none_iff

theorem Isolated.apart {spare : Nat} (h : Isolated spare pg) : Apart pg.frames := by
  intro key key' f hf hf'
  obtain ⟨e, he, hlow⟩ := frames_eq_some.mp hf
  obtain ⟨e', he', hlow'⟩ := frames_eq_some.mp hf'
  obtain ⟨hk, hu, rfl⟩ := userEntry_eq_some.mp he
  obtain ⟨hk', hu', rfl⟩ := userEntry_eq_some.mp he'
  obtain ⟨h1, h2⟩ := h.once _ _ hk hk' _ _ hu hu' (hlow.trans hlow'.symm)
  exact Prod.ext h1 h2

/-- A mapped frame is marked. -/
theorem Isolated.marked {spare : Nat} (h : Isolated spare pg) (hf : pg.frames key = some f) :
    ∃ g : Fin 32, pg.pageFrameMap g = true ∧ f = BitVec.ofNat 10 g := by
  obtain ⟨e, he, rfl⟩ := frames_eq_some.mp hf
  obtain ⟨hk, hu, rfl⟩ := userEntry_eq_some.mp he
  obtain ⟨g, -, hg, hlow⟩ := h.mapped _ hk _ hu
  exact ⟨g, hg, hlow⟩

theorem userEntry_congr (h : ∀ key : PageKey, key.1.Known → (pg'.directory key.1 key.2).User ∨
    (pg.directory key.1 key.2).User → pg'.directory key.1 key.2 = pg.directory key.1 key.2) :
    pg'.userEntry = pg.userEntry := by
  funext key
  apply Option.ext
  intro e
  rw [userEntry_eq_some, userEntry_eq_some]
  constructor
  · rintro ⟨hk, hu, rfl⟩
    exact ⟨hk, hu, (h key hk (Or.inl hu)).symm⟩
  · rintro ⟨hk, hu, rfl⟩
    exact ⟨hk, hu, h key hk (Or.inr hu)⟩

/-! ## Page tables that change -/

theorem userEntry_use (p : PageDirPtr) (pg : Paging) :
    (pagingUsePageDirectory p pg).userEntry = pg.userEntry := rfl

theorem userEntry_give (hp : p.Known) : (pg.give i p j).userEntry =
    Function.update pg.userEntry (p, j) (some ⟨userFlag, BitVec.ofNat 10 i⟩) := by
  funext key
  by_cases hkey : key = (p, j)
  · rw [hkey, Function.update_self, userEntry_eq_some]
    refine ⟨hp, ⟨rfl, rfl⟩, ?_⟩
    unfold Paging.give
    dsimp only
    rw [Function.update_self, Function.update_self]
  · rw [Function.update_of_ne hkey]
    have hdir : (pg.give i p j).directory key.1 key.2 = pg.directory key.1 key.2 := by
      unfold Paging.give
      dsimp only
      by_cases h1 : key.1 = p
      · have h2 : key.2 ≠ j := fun h2 => hkey (Prod.ext h1 h2)
        rw [h1, Function.update_self, Function.update_of_ne h2]
      · rw [Function.update_of_ne h1]
    apply Option.ext
    intro e
    rw [userEntry_eq_some, userEntry_eq_some, hdir]

/-- A directory that is not in use has no page. -/
theorem Isolated.unused_none {spare : Nat} (h : Isolated spare pg)
    (hd : pg.pageDirectoryUsed d = false) (j : Fin 1024) : pg.userEntry (.list d, j) = none :=
  userEntry_eq_none fun hu => Bool.false_ne_true ((h.pool d hd j).symm.trans hu.1)

theorem Isolated.userEntry_open {spare : Nat} (h : Isolated spare pg)
    (hd : pg.pageDirectoryUsed d = false) : (pg.openDirectory d).userEntry = pg.userEntry := by
  refine userEntry_congr fun key _ hu => ?_
  have hne : key.1 ≠ .list d := by
    intro hc
    rw [hc] at hu
    rcases hu with hu | hu
    · exact h.open_not_user hd _ hu
    · exact Bool.false_ne_true ((h.pool d hd _).symm.trans hu.1)
  exact congrFun (Function.update_of_ne hne ..) _

theorem userEntry_null (pg : Paging) :
    pg.userEntry = fun key => if key.1 = .null then none else pg.userEntry key := by
  funext key
  obtain ⟨p, j⟩ := key
  by_cases hp : p = .null
  · rw [hp]
    rfl
  · exact (if_neg hp).symm

/-- A directory that is given back has no page left; no other changes. -/
theorem userEntry_free (p : PageDirPtr) (pg : Paging) :
    ∃ q : PageDirPtr,
      (∀ d, q = .list d → (pagingFreePageDirectory p pg).2.pageDirectoryUsed d = false) ∧
      (pagingFreePageDirectory p pg).2.userEntry =
        fun key => if key.1 = q then none else pg.userEntry key := by
  rcases free_cases p pg with ⟨d, rfl, he⟩ | ⟨-, he⟩ <;> rw [he]
  · refine ⟨.list d, fun c hc => ?_, funext fun key => ?_⟩
    · cases hc
      exact Function.update_self ..
    by_cases hkey : key.1 = .list d
    · rw [if_pos hkey]
      refine userEntry_eq_none (p := key.1) (j := key.2) fun hu => ?_
      have hpres := hu.1
      unfold Paging.closeDirectory at hpres
      dsimp only at hpres
      rw [hkey, Function.update_self] at hpres
      cases hpres
    · rw [if_neg hkey]
      apply Option.ext
      intro e
      rw [userEntry_eq_some, userEntry_eq_some]
      unfold Paging.closeDirectory
      dsimp only
      rw [Function.update_of_ne hkey]
  · exact ⟨.null, fun _ hc => (nomatch hc), userEntry_null pg⟩

/-- A new address space: directory `d` with frame `g` for the program, and maybe another one for
    the stack. -/
structure NewSpace (buf : UInt32) (pg pg' : Paging) (d g : Fin 32) : Prop where
  unused : pg.pageDirectoryUsed d = false
  free : pg.pageFrameMap g = false
  program : pg'.userEntry (.list d, pageIndex buf) = some ⟨userFlag, BitVec.ofNat 10 g⟩
  stack : ∀ j, j ≠ pageIndex buf → pg'.userEntry (.list d, j) = none ∨
    j = pageIndex 0xBFFFFFFC ∧ ∃ g' : Fin 32, pg.pageFrameMap g' = false ∧
      pg'.userEntry (.list d, j) = some ⟨userFlag, BitVec.ofNat 10 g'⟩
  others : ∀ key : PageKey, key.1 ≠ .list d → pg'.userEntry key = pg.userEntry key
  marks : ∀ f, pg'.pageFrameMap f = false → pg.pageFrameMap f = false ∧ f ≠ g

theorem give_marks (pg : Paging) (i : Fin 32) (p : PageDirPtr) (j : Fin 1024) {f : Fin 32}
    (hf : (pg.give i p j).pageFrameMap f = false) : pg.pageFrameMap f = false ∧ f ≠ i := by
  have hne : f ≠ i := by
    rintro rfl
    rw [show (pg.give f p j).pageFrameMap f = true from Function.update_self ..] at hf
    cases hf
  exact ⟨(Function.update_of_ne hne ..).symm.trans hf, hne⟩

/-- With one frame the space has a page for the program. -/
theorem Isolated.one_frame (h : Isolated 0 pg) (hd : pg.pageDirectoryUsed d = false)
    (hi : pg.pageFrameMap i = false) (buf : UInt32) :
    NewSpace buf pg ((pg.openDirectory d).give i (.list d) (pageIndex buf)) d i := by
  have hentry : ((pg.openDirectory d).give i (.list d) (pageIndex buf)).userEntry = _ :=
    userEntry_give (Or.inr ⟨d, rfl⟩)
  rw [h.userEntry_open hd] at hentry
  refine ⟨hd, hi, ?_, fun j hj => Or.inl ?_, fun key hkey => ?_, fun f hf =>
    give_marks (pg.openDirectory d) i (.list d) (pageIndex buf) hf⟩
  · rw [hentry, Function.update_self]
  · rw [hentry, Function.update_of_ne fun hc => hj (Prod.mk.inj hc).2]
    exact h.unused_none hd j
  · rw [hentry, Function.update_of_ne]
    rintro rfl
    exact hkey rfl

/-- A second frame is for the stack, or it takes the place of the first. -/
theorem NewSpace.two_frames {g : Fin 32} (h : NewSpace buf pg pg' d g)
    (hi : pg'.pageFrameMap i = false) :
    ∃ g', NewSpace buf pg (pg'.give i (.list d) (pageIndex 0xBFFFFFFC)) d g' := by
  have hentry : (pg'.give i (.list d) (pageIndex 0xBFFFFFFC)).userEntry = _ :=
    userEntry_give (Or.inr ⟨d, rfl⟩)
  obtain ⟨hfree, hne⟩ := h.marks i hi
  have hothers : ∀ key : PageKey, key.1 ≠ .list d →
      (pg'.give i (.list d) (pageIndex 0xBFFFFFFC)).userEntry key = pg.userEntry key := by
    intro key hkey
    rw [hentry, Function.update_of_ne, h.others key hkey]
    rintro rfl
    exact hkey rfl
  by_cases hj : pageIndex buf = pageIndex 0xBFFFFFFC
  · refine ⟨i, h.unused, hfree, ?_, fun j hjb => ?_, hothers, fun f hf => ?_⟩
    · rw [hentry, hj, Function.update_self]
    · rw [hentry, Function.update_of_ne fun hc => hjb ((Prod.mk.inj hc).2.trans hj.symm)]
      exact h.stack j hjb
    · obtain ⟨hf', hfi⟩ := give_marks _ _ _ _ hf
      exact ⟨(h.marks f hf').1, hfi⟩
  · refine ⟨g, h.unused, h.free, ?_, fun j hjb => ?_, hothers, fun f hf => ?_⟩
    · rw [hentry, Function.update_of_ne fun hc => hj (Prod.mk.inj hc).2]
      exact h.program
    · by_cases hjs : j = pageIndex 0xBFFFFFFC
      · refine Or.inr ⟨hjs, i, hfree, ?_⟩
        rw [hentry, hjs, Function.update_self]
      · rw [hentry, Function.update_of_ne fun hc => hjs (Prod.mk.inj hc).2]
        exact h.stack j hjb
    · exact h.marks f (give_marks _ _ _ _ hf).1

/-- With a frame free, an address space can be opened. -/
theorem Isolated.newSpace (h : Isolated 0 pg) (hfree : pg.freePageFrameCount ≠ 0)
    (buf : UInt32) : ∃ d g, (LossOs.Kernel.openSpace buf pg).1 = .list d ∧
      NewSpace buf pg (LossOs.Kernel.openSpace buf pg).2.2.2 d g := by
  rw [openSpace_eq]
  rcases create_cases pg with ⟨hall, -⟩ | ⟨d, hd, he⟩
  · exact absurd (h.no_frame hall) hfree
  rw [he]
  dsimp only
  rcases allocate_cases (.list d) buf (pg.openDirectory d) with
    ⟨h0, -⟩ | ⟨-, hall, -⟩ | ⟨i, -, -, hi, ha⟩
  · exact absurd h0 hfree
  · have hz : count false pg.pageFrameMap = 0 := count_eq_zero.mpr fun i => by
      by_cases hi : i = 0
      · rw [hi, h.reserved]
        decide
      · rw [show pg.pageFrameMap i = true from
          hall i (Nat.one_le_iff_ne_zero.mpr fun hc => hi (Fin.ext hc))]
        decide
    have h0 : pg.freePageFrameCount = 0 := UInt32.toNat_inj.mp (h.free.trans hz)
    exact absurd h0 hfree
  · rw [ha]
    have hone := h.one_frame hd hi buf
    rcases allocate_cases (.list d) 0xBFFFFFFC
      ((pg.openDirectory d).give i (.list d) (pageIndex buf)) with
      ⟨-, ha'⟩ | ⟨-, -, ha'⟩ | ⟨i', -, -, hi', ha'⟩ <;> rw [ha']
    · exact ⟨d, i, rfl, hone⟩
    · exact ⟨d, i, rfl, hone⟩
    · obtain ⟨g, hg⟩ := hone.two_frames hi'
      exact ⟨d, g, rfl, hg⟩

/-! ## Steps of the machine -/

/-- The private memories of a machine. -/
def spacesOf (m : Machine) : Spaces := ⟨seen m.kernel.paging.frames m.ram, m.cr3⟩

/-- The page tables are in order, every page may be written, and no frame that has not been handed
    out has been. -/
structure Machine.Sound (ram₀ : BitVec 10 → Mem) (m : Machine) : Prop where
  isolated : Isolated 0 m.kernel.paging
  writable : ∀ key e, m.kernel.paging.userEntry key = some e → e.flag.writeBit = true
  untouched : ∀ f : Fin 32, m.kernel.paging.pageFrameMap f = false →
    m.ram (BitVec.ofNat 10 f) = ram₀ (BitVec.ofNat 10 f)

/-- The contents of a frame at the boot. -/
def AtBoot (ram₀ : BitVec 10 → Mem) (page : Mem) : Prop := ∃ f, page = ram₀ f

section Steps

variable {m m' : Machine} {ram₀ : BitVec 10 → Mem} {a : Act} {va : UInt32} {b : UInt8}

theorem entry_user (hp : m.cr3.Known) (hu : (m.entry va).User) :
    m.kernel.paging.userEntry (m.cr3, pageIndex va) = some (m.entry va) :=
  userEntry_eq_some.mpr ⟨hp, hu, rfl⟩

theorem frames_of_entry (h : pg.userEntry key = some e) : pg.frames key = some e.lowerAddress :=
  frames_eq_some.mpr ⟨e, h, rfl⟩

/-- The pages of a table that has lost a directory. -/
theorem spacesOf_free {k' : KernelState} (q : PageDirPtr)
    (h : k'.paging.userEntry =
      fun key => if key.1 = q then none else m.kernel.paging.userEntry key) :
    (spacesOf { m with kernel := k' }).pages = (spacesOf m).close q := by
  have hframes : k'.paging.frames =
      fun key => if key.1 = q then none else m.kernel.paging.frames key := by
    funext key
    unfold Paging.frames
    rw [h]
    dsimp only
    split <;> rfl
  unfold spacesOf Spaces.close
  dsimp only
  rw [hframes, seen_unmap]

/-- What an access under CR3 sees. -/
theorem page_of_entry (hp : m.cr3.Known) (hu : (m.entry va).User) :
    (spacesOf m).pages (m.cr3, pageIndex va) = some (m.ram (m.entry va).lowerAddress) :=
  seen_of_some (frames_of_entry (entry_user hp hu))

theorem step_load (hp : m.cr3.Known) (hb : m.load va = some b) :
    (spacesOf m).Step (AtBoot ram₀) (.load m.cr3 va b) (spacesOf m) := by
  obtain ⟨hu, hb⟩ := Option.ite_none_right_eq_some.mp hb
  rw [← Option.some.inj hb]
  exact .load (page_of_entry hp hu)

theorem step_fault (hb : m.load va = none) :
    (spacesOf m).Step (AtBoot ram₀) (.fault m.cr3 va) (spacesOf m) := by
  refine .fault (seen_eq_none.mpr (frames_eq_none.mpr (userEntry_eq_none fun hu => ?_)))
  exact Option.some_ne_none _ ((if_pos hu).symm.trans hb)

/-- A frame that is written is seen in the page of the access. -/
theorem Machine.Sound.seen_store (h : m.Sound ram₀) (hp : m.cr3.Known) (hu : (m.entry va).User)
    (page : Mem) : seen m.kernel.paging.frames
        (Function.update m.ram (m.entry va).lowerAddress page) =
      Function.update (spacesOf m).pages (m.cr3, pageIndex va) (some page) :=
  seen_write h.isolated.apart (frames_of_entry (entry_user hp hu)) page

/-- A store is a store to the private memory, and the frame it changes is marked. -/
theorem Machine.Sound.store (h : m.Sound ram₀) (hp : m.cr3.Known)
    (hb : m.store va b = some m') :
    m'.Sound ram₀ ∧ (spacesOf m).Step (AtBoot ram₀) (.store m.cr3 va b) (spacesOf m') := by
  obtain ⟨⟨hu, -⟩, hb⟩ := Option.ite_none_right_eq_some.mp hb
  obtain rfl := Option.some.inj hb
  obtain ⟨g, hg, hlow⟩ := h.isolated.marked (frames_of_entry (entry_user hp hu))
  refine ⟨⟨h.isolated, h.writable, fun f hfree => ?_⟩, ?_⟩
  · have hne : BitVec.ofNat 10 f.val ≠ (m.entry va).lowerAddress := by
      rw [hlow]
      intro hc
      rw [ofNat_frame_inj hc, hg] at hfree
      cases hfree
    exact (Function.update_of_ne hne ..).trans (h.untouched f hfree)
  · show (spacesOf m).Step _ _ ⟨seen _ (Function.update m.ram _ _), m.cr3⟩
    rw [h.seen_store hp hu]
    exact .store (page_of_entry hp hu)

/-- The page tables after a call that is no creation. -/
theorem destroy_frames (pid : UInt32) (k : KernelState) :
    ∃ q : PageDirPtr,
      (∀ d, q = .list d → (processDestroy pid k).2.paging.pageDirectoryUsed d = false) ∧
      (processDestroy pid k).2.paging.cr3 = k.paging.cr3 ∧
      (processDestroy pid k).2.paging.pageFrameMap = k.paging.pageFrameMap ∧
      (processDestroy pid k).2.paging.userEntry =
        fun key => if key.1 = q then none else k.paging.userEntry key := by
  rcases processDestroy_cases pid k with ⟨-, he⟩ | ⟨-, he⟩ <;> rw [he]
  · exact ⟨.null, fun _ hc => (nomatch hc), rfl, rfl, userEntry_null _⟩
  · dsimp only
    rw [destroyed_paging]
    generalize (k.processList pid.toNat).context.pageDirectoryVirtualAddr = p
    obtain ⟨q, hused, hq⟩ := userEntry_free p k.paging
    refine ⟨q, hused, ?_, ?_, hq⟩
    all_goals
      rcases free_cases p k.paging with ⟨d, -, he⟩ | ⟨-, he⟩ <;> rw [he]
      rfl

/-- A kernel that has taken no frame and mapped no page. -/
theorem Machine.Sound.shrink (h : m.Sound ram₀) (hI : Isolated 0 k'.paging)
    (hmap : k'.paging.pageFrameMap = m.kernel.paging.pageFrameMap) {q : PageDirPtr}
    (hentry : k'.paging.userEntry =
      fun key => if key.1 = q then none else m.kernel.paging.userEntry key) :
    ({ m with kernel := k' } : Machine).Sound ram₀ := by
  refine ⟨hI, fun key e he => ?_, fun f hf => h.untouched f (hmap ▸ hf)⟩
  rw [show ({ m with kernel := k' } : Machine).kernel.paging.userEntry = _ from hentry] at he
  dsimp only at he
  split at he
  · cases he
  · exact h.writable key e he

/-- A switch changes CR3 and no page. -/
theorem switch_entries (hs : (schedulerSwitchToNextProcess k).map Prod.snd = some k') :
    k'.paging.pageDirectoryUsed = k.paging.pageDirectoryUsed ∧
      k'.paging.pageFrameMap = k.paging.pageFrameMap ∧
      k'.paging.userEntry = k.paging.userEntry := by
  obtain ⟨r, hr, rfl⟩ := Option.map_eq_some_iff.mp hs
  rw [switch_paging hr]
  exact ⟨rfl, rfl, rfl⟩

/-- The pages of directory `d` are the same on both machines. -/
def SamePages (d : Fin 32) (m m' : Machine) : Prop :=
  ∀ j, (spacesOf m').pages (.list d, j) = (spacesOf m).pages (.list d, j)

theorem close_samePages {q : PageDirPtr} (hq : q ≠ .list d)
    (h : (spacesOf m').pages = (spacesOf m).close q) : SamePages d m m' := fun j => by
  rw [h]
  exact if_neg fun hc => hq hc.symm

theorem Machine.Sound.switched (h : m.Sound ram₀) (hI : Isolated 0 k'.paging)
    (hmap : k'.paging.pageFrameMap = m.kernel.paging.pageFrameMap)
    (hentry : k'.paging.userEntry = m.kernel.paging.userEntry) :
    ({ m with kernel := k' } : Machine).Sound ram₀ ∧ spacesOf { m with kernel := k' } =
      { spacesOf m with current := k'.paging.cr3 } := by
  refine ⟨h.shrink hI hmap (hentry.trans (userEntry_null _)), ?_⟩
  have hframes : k'.paging.frames = m.kernel.paging.frames := by
    unfold Paging.frames
    rw [hentry]
  unfold spacesOf
  dsimp only
  rw [hframes]
  rfl

/-- What enters the kernel closes a space at most, and may go to another one. -/
theorem Machine.Sound.event {e : Event} (h : m.Sound ram₀)
    (hnot : ∀ request code, e ≠ .create request code) (he : e.run m.kernel = some k') :
    ({ m with kernel := k' } : Machine).Sound ram₀ ∧
      (spacesOf m).Step (AtBoot ram₀) (.event e) (spacesOf { m with kernel := k' }) ∧
      ∀ d, k'.paging.pageDirectoryUsed d = true → SamePages d m { m with kernel := k' } := by
  have hI := h.isolated.event he
  cases e with
  | create request code => exact absurd rfl (hnot request code)
  | destroy pid =>
    cases he
    obtain ⟨q, hused, hcr3, hmap, hentry⟩ := destroy_frames pid m.kernel
    have hpages := spacesOf_free q hentry
    have hspaces : spacesOf { m with kernel := (processDestroy pid m.kernel).2 } =
        { spacesOf m with pages := (spacesOf m).close q } := by
      rw [← hpages]
      exact congrArg (Spaces.mk _) hcr3
    refine ⟨h.shrink hI hmap hentry, by rw [hspaces]; exact .destroy q, fun d hd => ?_⟩
    exact close_samePages (fun hq => Bool.false_ne_true ((hused d hq).symm.trans hd)) hpages
  | exit =>
    obtain ⟨i, -, he⟩ := Option.bind_eq_some_iff.mp he
    obtain ⟨q, hused, -, hmap, hentry⟩ := destroy_frames (m.kernel.processList i).pid m.kernel
    obtain ⟨hused', hmap', hentry'⟩ := switch_entries he
    replace hentry := hentry'.trans hentry
    have hpages := spacesOf_free q hentry
    have hspaces : spacesOf { m with kernel := k' } =
        ⟨(spacesOf m).close q, k'.paging.cr3⟩ := by
      rw [← hpages]
      rfl
    refine ⟨h.shrink hI (hmap'.trans hmap) hentry, by rw [hspaces]; exact .exit q _,
      fun d hd => ?_⟩
    rw [hused'] at hd
    exact close_samePages (fun hq => Bool.false_ne_true ((hused d hq).symm.trans hd)) hpages
  | tick ctx =>
    obtain ⟨-, hmap, hentry⟩ := switch_entries he
    rw [schedulerSaveContext_paging] at hmap hentry
    obtain ⟨hs, hspaces⟩ := h.switched hI hmap hentry
    exact ⟨hs, by rw [hspaces]; exact .tick _, fun d _ j => by rw [hspaces]⟩
  | switch =>
    obtain ⟨-, hmap, hentry⟩ := switch_entries he
    obtain ⟨hs, hspaces⟩ := h.switched hI hmap hentry
    exact ⟨hs, by rw [hspaces]; exact .switch _, fun d _ j => by rw [hspaces]⟩

/-! ## Creation -/

variable {request : ProcessRequest} {code : Int} {out : Mem}

/-- A program in one page is refused when there is no frame. -/
theorem free_of_inPage (hin : request.InPage) (hr : ¬ Refused request k) :
    k.paging.freePageFrameCount ≠ 0 := by
  intro h0
  have hcheck : pagingAllocateCheck (framesNeeded request) k.paging = true := by
    by_contra hc
    exact hr (Or.inr (Or.inr (Or.inl (Bool.eq_false_iff.mpr hc))))
  have hsize : request.bufferSize.toNat ≤ 4194304 := by
    unfold ProcessRequest.InPage at hin
    omega
  have hneeded : (framesNeeded request).toNat = _ := framesNeeded_toNat
  rw [exactFrames_eq] at hneeded
  rw [allocateCheck_iff (by omega), h0, show (0 : UInt32).toNat = 0 from rfl] at hcheck
  omega

/-- The machine after a creation that went through: the program is in the new space. -/
theorem Machine.Sound.opened (h : m.Sound ram₀) {d g : Fin 32}
    (hnew : NewSpace request.buf m.kernel.paging k'.paging d g) (hI : Isolated 0 k'.paging)
    (hm' : m' = ⟨k', Function.update m.ram (BitVec.ofNat 10 g)
      (blit (m.ram (BitVec.ofNat 10 g)) (pageOffset request.buf) out request.bufferSize.toNat)⟩) :
    m'.Sound ram₀ ∧ (spacesOf m).Opens (AtBoot ram₀) request out (spacesOf m') (.list d) := by
  subst hm'
  have hkeep : ∀ f : Fin 32, f ≠ g → ∀ page,
      Function.update m.ram (BitVec.ofNat 10 g.val) page (BitVec.ofNat 10 f.val) =
        m.ram (BitVec.ofNat 10 f.val) := fun f hf page =>
    Function.update_of_ne (fun hc => hf (ofNat_frame_inj hc)) ..
  have hf := frames_of_entry hnew.program
  -- the program is seen in its own page only
  have hseen : ∀ key, key ≠ (PageDirPtr.list d, pageIndex request.buf) → ∀ page,
      seen k'.paging.frames (Function.update m.ram (BitVec.ofNat 10 g) page) key =
        seen k'.paging.frames m.ram key := fun key hkey page => by
    rw [seen_write hI.apart hf, Function.update_of_ne hkey]
  refine ⟨⟨hI, fun key e he => ?_, fun f hfree => ?_⟩, ?_, ?_, ?_, ?_⟩
  · by_cases hkey : key.1 = .list d
    · obtain ⟨p, j⟩ := key
      cases hkey
      by_cases hj : j = pageIndex request.buf
      · rw [hj] at he
        rw [Option.some.inj (he.symm.trans hnew.program)]
        rfl
      · rcases hnew.stack j hj with hn | ⟨-, g', -, hs⟩
        · cases he.symm.trans hn
        · rw [Option.some.inj (he.symm.trans hs)]
          rfl
    · exact h.writable key e ((hnew.others key hkey).symm.trans he)
  · obtain ⟨hold, hne⟩ := hnew.marks f hfree
    exact (hkeep f hne _).trans (h.untouched f hold)
  · exact fun j => seen_eq_none.mpr (frames_eq_none.mpr (h.isolated.unused_none hnew.unused j))
  · intro key hkey
    refine (hseen key (fun hc => hkey (congrArg Prod.fst hc)) _).trans ?_
    show (k'.paging.frames key).map m.ram = (m.kernel.paging.frames key).map m.ram
    unfold Paging.frames
    rw [hnew.others key hkey]
  · refine ⟨m.ram (BitVec.ofNat 10 g), ⟨_, h.untouched g hnew.free⟩, ?_⟩
    exact (seen_of_some hf).trans (congrArg some (Function.update_self ..))
  · intro j hj
    rcases hnew.stack j hj with hn | ⟨hjs, g', hfree, hs⟩
    · exact Or.inl (seen_eq_none.mpr (frames_eq_none.mpr hn))
    · refine Or.inr ⟨hjs, m.ram (BitVec.ofNat 10 g'), ⟨_, h.untouched g' hfree⟩, ?_⟩
      exact (hseen _ (fun hc => hj (Prod.mk.inj hc).2) _).trans (seen_of_some (frames_of_entry hs))

/-- The state in which the program is loaded. -/
theorem loading_space {d g : Fin 32} (hopen : (openSpace request.buf k.paging).1 = .list d)
    (hnew : NewSpace request.buf k.paging (openSpace request.buf k.paging).2.2.2 d g)
    (ram : BitVec 10 → Mem) :
    (Machine.entry request.buf ⟨loading request k, ram⟩).lowerAddress = BitVec.ofNat 10 g := by
  obtain ⟨-, -, he⟩ := userEntry_eq_some.mp hnew.program
  unfold Machine.entry Machine.cr3
  dsimp only
  rw [loading_paging, hopen]
  exact congrArg PageDirectoryEntry.lowerAddress he

theorem NewSpace.use {d g : Fin 32} (h : NewSpace buf pg pg' d g) (p : PageDirPtr) :
    NewSpace buf pg (pagingUsePageDirectory p pg') d g :=
  ⟨h.unused, h.free, h.program, h.stack, h.others, h.marks⟩

/-- Where a creation that is not refused puts the program. -/
theorem Machine.Sound.create_eq (h : m.Sound ram₀) (hin : request.InPage)
    (hr : ¬ Refused request m.kernel) : ∃ d g,
      (openSpace request.buf m.kernel.paging).1 = .list d ∧
      NewSpace request.buf m.kernel.paging (openSpace request.buf m.kernel.paging).2.2.2 d g ∧
      ∀ code out, m.create request code out =
        ⟨(processCreateUserProcess request code m.kernel).2,
          Function.update m.ram (BitVec.ofNat 10 g) (blit (m.ram (BitVec.ofNat 10 g))
            (pageOffset request.buf) out request.bufferSize.toNat)⟩ := by
  obtain ⟨d, g, hopen, hnew⟩ := h.isolated.newSpace (free_of_inPage hin hr) request.buf
  refine ⟨d, g, hopen, hnew, fun code out => ?_⟩
  unfold Machine.create
  dsimp only
  rw [if_neg hr, loading_space hopen hnew]

/-- A creation that succeeds goes back to the directory it came from. -/
theorem created_cr3 (request : ProcessRequest) (hp : k.paging.cr3.Known) :
    (created request k).paging.cr3 = k.paging.cr3 := by
  rw [created_paging]
  unfold pagingGetCurrentPageDirectoryAddr pagingUsePageDirectory
  rcases hp with hp | ⟨i, hp⟩ <;> rw [hp]

/-- A creation is refused, or opens a space. -/
theorem Machine.Sound.create (h : m.Sound ram₀) (hp : m.cr3.Known) (hin : request.InPage) :
    (m.create request code out).Sound ram₀ ∧
      (spacesOf m).Step (AtBoot ram₀) (.create request code out)
        (spacesOf (m.create request code out)) ∧
      ∀ d, m.kernel.paging.pageDirectoryUsed d = true →
        SamePages d m (m.create request code out) := by
  by_cases hr : Refused request m.kernel
  · have hsame : m.create request code out = m := by
      unfold Machine.create
      dsimp only
      rw [if_pos hr]
      rcases processCreate_cases request code m.kernel with
        ⟨-, c, -, he⟩ | ⟨hn, -⟩ | ⟨hn, -⟩
      · rw [he]
      · exact absurd hr hn
      · exact absurd hr hn
    rw [hsame]
    exact ⟨h, .refused, fun _ _ _ => rfl⟩
  obtain ⟨d, g, hopen, hnew, hcreate⟩ := h.create_eq hin hr
  have hm' := hcreate code out
  have hI := h.isolated.created request code
  have hsame : ∀ s : Spaces, (spacesOf m).Opens (AtBoot ram₀) request out s (.list d) →
      ∀ c, m.kernel.paging.pageDirectoryUsed c = true →
        ∀ j, s.pages (.list c, j) = (spacesOf m).pages (.list c, j) := by
    intro s ho c hc j
    refine ho.others _ fun hcd => ?_
    cases hcd
    exact Bool.false_ne_true (hnew.unused.symm.trans hc)
  rcases processCreate_cases request code m.kernel with
    ⟨hc, -⟩ | ⟨-, hcode, he⟩ | ⟨-, hcode, he⟩
  · exact absurd hc hr
  · rw [he] at hm' hI
    obtain ⟨hs, ho⟩ := h.opened (by rw [loading_paging]; exact hnew.use _) hI hm'
    refine ⟨hs, .create ho ?_, hsame _ ho⟩
    rw [if_neg hcode, hm']
    unfold spacesOf Machine.cr3
    dsimp only
    rw [loading_paging, hopen]
    rfl
  · rw [he] at hm' hI
    obtain ⟨hs, ho⟩ := h.opened
      (by rw [created_paging, loading_paging]; exact (hnew.use _).use _) hI hm'
    refine ⟨hs, .create ho ?_, hsame _ ho⟩
    rw [if_pos hcode, hm']
    exact created_cr3 request hp

theorem Machine.Sound.step (h : m.Sound ram₀) (hs : m.Step a m') :
    m'.Sound ram₀ ∧ (spacesOf m).Step (AtBoot ram₀) a (spacesOf m') := by
  cases hs with
  | load hp hb => exact ⟨h, step_load hp hb⟩
  | store hp hb => exact h.store hp hb
  | fault hp hb => exact ⟨h, step_fault hb⟩
  | create request code out hp hin =>
    obtain ⟨hs, hstep, -⟩ := h.create hp hin
    exact ⟨hs, hstep⟩
  | event hnot _ he =>
    obtain ⟨hs, hstep, -⟩ := h.event hnot he
    exact ⟨hs, hstep⟩

end Steps

/-! ## Runs -/

/-- The machine when `kernel_setup` has mapped its page. -/
def bootMachine (s : Surroundings) (ram : BitVec 10 → Mem) : Machine := ⟨boot s, ram⟩

/-- The private memories of the boot: one page of the kernel's directory. -/
def bootSpaces (ram : BitVec 10 → Mem) : Spaces :=
  ⟨Function.update (fun _ => none) (.kernel, 0) (some (ram 1)), .kernel⟩

theorem boot_entries (s : Surroundings) : (boot s).paging.userEntry =
    Function.update (fun _ => none) (.kernel, 0) (some ⟨userFlag, 1⟩) := by
  have hnone : (linkedPaging s).userEntry = fun _ => none := by
    funext key
    obtain ⟨p, j⟩ := key
    cases p with
    | addr a => rfl
    | list i => exact userEntry_eq_none (show ¬ PageDirectoryEntry.zero.User by decide)
    | kernel =>
      refine userEntry_eq_none ?_
      show ¬ (if j.val = 0 ∨ j.val = 0x300 then kernelEntry else .zero : PageDirectoryEntry).User
      split <;> decide
  rw [boot_paging, userEntry_give (Or.inl rfl), hnone]
  rfl

theorem sound_boot (s : Surroundings) (ram : BitVec 10 → Mem) : (bootMachine s ram).Sound ram := by
  refine ⟨isolated_boot s, fun key e he => ?_, fun f _ => rfl⟩
  rw [show (bootMachine s ram).kernel.paging.userEntry = _ from boot_entries s] at he
  by_cases hkey : key = (.kernel, 0)
  · rw [hkey, Function.update_self] at he
    cases he
    rfl
  · rw [Function.update_of_ne hkey] at he
    cases he

theorem spacesOf_boot (s : Surroundings) (ram : BitVec 10 → Mem) :
    spacesOf (bootMachine s ram) = bootSpaces ram := by
  have hframes : (boot s).paging.frames =
      Function.update (fun _ => none) (.kernel, 0) (some 1) := by
    funext key
    unfold Paging.frames
    rw [boot_entries]
    by_cases hkey : key = (.kernel, 0)
    · rw [hkey, Function.update_self, Function.update_self]
      rfl
    · rw [Function.update_of_ne hkey, Function.update_of_ne hkey]
      rfl
  unfold spacesOf bootSpaces bootMachine Machine.cr3
  dsimp only
  rw [hframes, seen_map, boot_paging]
  rfl

variable {m : Machine} {ram₀ : BitVec 10 → Mem} {s : Surroundings} {acts : List Act}

/-- All that happens on the machine happens to private memories. -/
theorem memories_private (hrun : Execution Machine.Step (bootMachine s ram₀) acts m) :
    Execution (Spaces.Step (AtBoot ram₀)) (bootSpaces ram₀) acts (spacesOf m) := by
  obtain ⟨t, ht, -, rfl⟩ := hrun.simulate (Spaces.Step (AtBoot ram₀)) (fun a => [a])
    (fun m t => m.Sound ram₀ ∧ spacesOf m = t)
    (fun m t a m' hR hstep => by
      obtain ⟨hs, rfl⟩ := hR
      obtain ⟨hs', ht⟩ := hs.step hstep
      exact ⟨_, .single ht, hs', rfl⟩) ⟨sound_boot s ram₀, spacesOf_boot s ram₀⟩
  simpa using ht

/-- The machine with one process, which runs. -/
def oneProcess : Machine :=
  let m := (bootMachine emptyMemory fun _ _ => 0).create (sizedProgram 16) 0 fun _ => 1
  ⟨(Event.switch.run m.kernel).getD m.kernel, m.ram⟩

theorem eq_some_getD {α : Type*} {o : Option α} (h : o.isSome = true) (x : α) :
    o = some (o.getD x) := by
  cases o with
  | none => cases h
  | some a => rfl

theorem oneProcess_run : Execution Machine.Step (bootMachine emptyMemory fun _ _ => 0)
    [.create (sizedProgram 16) 0 fun _ => 1, .event .switch] oneProcess := by
  have hin : (sizedProgram 16).InPage := show pageOffset 0 + 16 ≤ 4194304 by decide
  exact .cons (.create _ _ _ (Or.inl rfl) hin)
    (.single (.event nofun trivial (eq_some_getD (by decide) _)))

/-- The first process is created and runs. -/
theorem memories_private_first : Execution (Spaces.Step (AtBoot fun _ _ => 0))
    (bootSpaces fun _ _ => 0) [.create (sizedProgram 16) 0 fun _ => 1, .event .switch]
    (spacesOf oneProcess) := memories_private oneProcess_run

end LossOs.Kernel
