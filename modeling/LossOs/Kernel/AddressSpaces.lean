/-
  Address spaces are isolated.

  `Isolated` ties the frame map, its counter and the pool of page directories together: a frame
  that is mapped for user mode anywhere is marked and mapped once, a directory of the pool that
  is not in use maps nothing, and every directory in use has cost two frames as long as there
  were any. `Isolated.event` is the step, and `address_spaces_isolated` the run: frames are
  never shared, a new directory maps the kernel only, and when the pool is empty no frame is
  left that could be written through `NULL`.
-/
import LossOs.Lib.Runs
import LossOs.Kernel.Process

namespace LossOs.Kernel

open LossOs.Lib

/-- The kernel's directory or one of the pool. -/
def PageDirPtr.Known (p : PageDirPtr) : Prop := p = .kernel ∨ ∃ i, p = .list i

/-- The invariant, with `spare` frames still to be taken for directories that have just been
    opened. -/
structure Isolated (spare : Nat) (pg : Paging) : Prop where
  free : pg.freePageFrameCount.toNat = count false pg.pageFrameMap
  reserved : pg.pageFrameMap 0 = true
  mapped : ∀ p : PageDirPtr, p.Known → ∀ j, (pg.directory p j).User →
    ∃ f : Fin 32, 1 ≤ f.val ∧ pg.pageFrameMap f = true ∧
      (pg.directory p j).lowerAddress = BitVec.ofNat 10 f
  once : ∀ p q : PageDirPtr, p.Known → q.Known → ∀ i j, (pg.directory p i).User →
    (pg.directory q j).User →
    (pg.directory p i).lowerAddress = (pg.directory q j).lowerAddress → p = q ∧ i = j
  pool : ∀ i, pg.pageDirectoryUsed i = false → ∀ j,
    (pg.directory (.list i) j).flag.presentBit = false
  paid : 2 * count true pg.pageDirectoryUsed + 2 ≤ count true pg.pageFrameMap + spare ∨
    count false pg.pageFrameMap = 0

variable {pg : Paging} {spare : Nat} {p : PageDirPtr} {i : Fin 32}

theorem ofNat_frame_inj {f g : Fin 32} (h : BitVec.ofNat 10 f.val = BitVec.ofNat 10 g.val) :
    f = g := by
  have := congrArg BitVec.toNat h
  rw [BitVec.toNat_ofNat, BitVec.toNat_ofNat] at this
  omega

/-! ## Steps on the page tables -/

theorem Isolated.give (h : Isolated (spare + 1) pg) (hp : p.Known) (h0 : pg.freePageFrameCount ≠ 0)
    (h1 : 1 ≤ i.val) (hi : pg.pageFrameMap i = false)
    (hused : ∀ d, p = .list d → pg.pageDirectoryUsed d = true) (j : Fin 1024) :
    Isolated spare (pg.give i p j) := by
  have hdir : ∀ q k, ((pg.give i p j).directory q k = pg.directory q k) ∨
      (q = p ∧ k = j ∧ (pg.give i p j).directory q k = ⟨userFlag, BitVec.ofNat 10 i⟩) := by
    intro q k
    unfold Paging.give
    dsimp only
    by_cases hq : q = p
    · subst hq
      rw [Function.update_self]
      by_cases hk : k = j
      · subst hk
        exact Or.inr ⟨rfl, rfl, Function.update_self ..⟩
      · exact Or.inl (Function.update_of_ne hk ..)
    · exact Or.inl (by rw [Function.update_of_ne hq])
  have hkeep : ∀ f, pg.pageFrameMap f = true → (pg.give i p j).pageFrameMap f = true := by
    intro f hf
    have hfi : f ≠ i := fun hc => by rw [hc, hi] at hf; cases hf
    exact (Function.update_of_ne hfi ..).trans hf
  -- the frame given away was free, so no old entry holds it
  have hnew : ∀ q, q.Known → ∀ k, (pg.directory q k).User →
      (pg.directory q k).lowerAddress ≠ BitVec.ofNat 10 i := by
    intro q hq k hu hc
    obtain ⟨f, -, hf, he⟩ := h.mapped q hq k hu
    rw [ofNat_frame_inj (he.symm.trans hc), hi] at hf
    cases hf
  have hgain : count true (pg.give i p j).pageFrameMap = count true pg.pageFrameMap + 1 :=
    count_update_gain (by rw [hi]; decide)
  have hloss : count false (pg.give i p j).pageFrameMap + 1 = count false pg.pageFrameMap :=
    count_update_loss hi
  refine ⟨?_, hkeep 0 h.reserved, fun q hq k hu => ?_, fun q r hq hr k l hu hv he => ?_,
    fun d hd k => ?_, ?_⟩
  · have hsub : (pg.give i p j).freePageFrameCount.toNat = pg.freePageFrameCount.toNat - 1 := by
      have hpos : (1 : UInt32) ≤ pg.freePageFrameCount := by
        rw [UInt32.le_iff_toNat_le]
        have : pg.freePageFrameCount.toNat ≠ 0 := fun hc => h0 (UInt32.toNat_inj.mp hc)
        exact Nat.one_le_iff_ne_zero.mpr this
      exact UInt32.toNat_sub_of_le _ _ hpos
    rw [hsub, h.free]
    omega
  · rcases hdir q k with he | ⟨-, -, he⟩
    · rw [he] at hu ⊢
      obtain ⟨f, hf, hmap, hlow⟩ := h.mapped q hq k hu
      exact ⟨f, hf, hkeep f hmap, hlow⟩
    · rw [he]
      exact ⟨i, h1, Function.update_self .., rfl⟩
  · rcases hdir q k with hq' | ⟨rfl, rfl, hq'⟩ <;> rcases hdir r l with hr' | ⟨rfl, rfl, hr'⟩
    · rw [hq'] at hu he
      rw [hr'] at hv he
      exact h.once q r hq hr k l hu hv he
    · rw [hq'] at hu he
      rw [hr'] at he
      exact absurd he (hnew q hq k hu)
    · rw [hr'] at hv he
      rw [hq'] at he
      exact absurd he.symm (hnew r hr l hv)
    · exact ⟨rfl, rfl⟩
  · rcases hdir (.list d) k with he | ⟨rfl, -, -⟩
    · rw [he]
      exact h.pool d hd k
    · rw [show (pg.give i (.list d) j).pageDirectoryUsed d = true from hused d rfl] at hd
      cases hd
  · rcases h.paid with hp' | hp'
    · left
      show 2 * count true pg.pageDirectoryUsed + 2 ≤ _
      omega
    · omega

/-- An allocation in a directory in use, or one that finds no frame. -/
theorem Isolated.allocate (h : Isolated (spare + 1) pg) (va : UInt32)
    (hp : count false pg.pageFrameMap ≠ 0 → p.Known ∧
      ∀ d, p = .list d → pg.pageDirectoryUsed d = true) :
    Isolated spare (pagingAllocateUserPageFrame p va pg).2 := by
  have hzero : count false pg.pageFrameMap = 0 → Isolated spare pg := fun hz =>
    ⟨h.free, h.reserved, h.mapped, h.once, h.pool, Or.inr hz⟩
  rcases allocate_cases p va pg with ⟨h0, he⟩ | ⟨h0, hall, he⟩ | ⟨i, h0, h1, hi, he⟩ <;> rw [he]
  · apply hzero
    rw [← h.free, h0]
    rfl
  · refine hzero (count_eq_zero.mpr fun i => ?_)
    by_cases hi : i = 0
    · rw [hi, h.reserved]
      decide
    · rw [hall i (Nat.one_le_iff_ne_zero.mpr fun hc => hi (Fin.ext hc))]
      decide
  · have hne : count false pg.pageFrameMap ≠ 0 := (count_pos hi).ne'
    obtain ⟨hk, hused⟩ := hp hne
    exact h.give hk h0 h1 hi hused _

/-- A change of the pool that maps no frame: every directory with a user entry is an old one. -/
theorem Isolated.remap {pg' : Paging} {spare' : Nat} (h : Isolated spare pg)
    (hmap : pg'.pageFrameMap = pg.pageFrameMap)
    (hfree : pg'.freePageFrameCount = pg.freePageFrameCount)
    (hold : ∀ (q : PageDirPtr) (j : Fin 1024), (pg'.directory q j).User →
      pg'.directory q = pg.directory q)
    (hpool : ∀ i, pg'.pageDirectoryUsed i = false → ∀ j,
      (pg'.directory (.list i) j).flag.presentBit = false)
    (hpaid : 2 * count true pg.pageDirectoryUsed + 2 ≤ count true pg.pageFrameMap + spare →
      2 * count true pg'.pageDirectoryUsed + 2 ≤ count true pg.pageFrameMap + spare') :
    Isolated spare' pg' := by
  refine ⟨by rw [hfree, hmap]; exact h.free, by rw [hmap]; exact h.reserved,
    fun q hq j hu => ?_, fun q r hq hr j k hu hv he => ?_, hpool, ?_⟩
  · have hq' := hold q j hu
    rw [hq'] at hu ⊢
    rw [hmap]
    exact h.mapped q hq j hu
  · have hq' := hold q j hu
    have hr' := hold r k hv
    rw [hq'] at hu he
    rw [hr'] at hv he
    exact h.once q r hq hr j k hu hv he
  · rw [hmap]
    exact h.paid.imp_left hpaid

/-- The entries of a directory that is opened: the kernel's only. -/
theorem Isolated.open_entry (h : Isolated spare pg) (hi : pg.pageDirectoryUsed i = false)
    (j : Fin 1024) : ((pg.openDirectory i).directory (.list i) j).flag.presentBit = true ↔
      j = 0x300 := by
  unfold Paging.openDirectory
  dsimp only
  rw [Function.update_self]
  by_cases hj : j = 0x300
  · subst hj
    rw [Function.update_self]
    exact ⟨fun _ => rfl, fun _ => rfl⟩
  · rw [Function.update_of_ne hj, h.pool i hi j]
    exact ⟨fun hc => (Bool.false_ne_true hc).elim, fun hc => (hj hc).elim⟩

/-- A directory that is opened maps no user page. -/
theorem Isolated.open_not_user {spare : Nat} {d : Fin 32} (h : Isolated spare pg)
    (hd : pg.pageDirectoryUsed d = false) (j : Fin 1024) :
    ¬ ((pg.openDirectory d).directory (.list d) j).User := by
  rintro ⟨hpres, huser⟩
  rw [(h.open_entry hd j).mp hpres] at huser
  unfold Paging.openDirectory at huser
  dsimp only at huser
  rw [Function.update_self, Function.update_self] at huser
  cases huser

theorem Isolated.openDirectory (h : Isolated spare pg) (hi : pg.pageDirectoryUsed i = false) :
    Isolated (spare + 2) (pg.openDirectory i) := by
  have hdir : ∀ q : PageDirPtr, q ≠ .list i →
      (pg.openDirectory i).directory q = pg.directory q := fun q hq => Function.update_of_ne hq ..
  refine h.remap rfl rfl (fun q j hu => hdir q fun hc =>
    h.open_not_user hi j (hc ▸ hu)) (fun d hd j => ?_)
    fun hp => ?_
  · by_cases hdi : d = i
    · rw [hdi, show (pg.openDirectory i).pageDirectoryUsed i = true from
        Function.update_self ..] at hd
      cases hd
    · rw [hdir _ fun hc => hdi (PageDirPtr.list.inj hc)]
      exact h.pool d ((Function.update_of_ne hdi ..).symm.trans hd) j
  · have : count true (pg.openDirectory i).pageDirectoryUsed =
        count true pg.pageDirectoryUsed + 1 := count_update_gain (by rw [hi]; decide)
    omega

theorem Isolated.closeDirectory (h : Isolated spare pg) (i : Fin 32) :
    Isolated spare (pg.closeDirectory i) := by
  have hdir : ∀ q : PageDirPtr, q ≠ .list i →
      (pg.closeDirectory i).directory q = pg.directory q := fun q hq => Function.update_of_ne hq ..
  have hnot : ∀ j, ((pg.closeDirectory i).directory (.list i) j).flag.presentBit = false := by
    intro j
    unfold Paging.closeDirectory
    dsimp only
    rw [Function.update_self]
    rfl
  refine h.remap rfl rfl (fun q j hu => hdir q fun hc => ?_) (fun d hd j => ?_) fun hp => ?_
  · have hpres := hu.1
    rw [hc, hnot j] at hpres
    cases hpres
  · by_cases hdi : d = i
    · rw [hdi]
      exact hnot j
    · rw [hdir _ fun hc => hdi (PageDirPtr.list.inj hc)]
      exact h.pool d ((Function.update_of_ne hdi ..).symm.trans hd) j
  · have : count true (pg.closeDirectory i).pageDirectoryUsed ≤
        count true pg.pageDirectoryUsed := count_le_of_imp fun d hd => by
      by_cases hdi : d = i
      · rw [hdi, show (pg.closeDirectory i).pageDirectoryUsed i = false from
          Function.update_self ..] at hd
        cases hd
      · exact (Function.update_of_ne hdi ..).symm.trans hd
    omega

/-- With all directories in use there is no frame left. -/
theorem Isolated.no_frame (h : Isolated 0 pg) (hall : ∀ i, pg.pageDirectoryUsed i = true) :
    pg.freePageFrameCount = 0 := by
  have h32 : count false pg.pageDirectoryUsed = 0 :=
    count_eq_zero.mpr fun i => by rw [hall i]; decide
  have h1 := count_add pg.pageDirectoryUsed
  have h2 := count_add pg.pageFrameMap
  have hz : count false pg.pageFrameMap = 0 := by
    rcases h.paid with hp | hp <;> omega
  exact UInt32.toNat_inj.mp (h.free.trans hz)

theorem allocate_of_no_frame (h : pg.freePageFrameCount = 0) (p : PageDirPtr) (va : UInt32) :
    pagingAllocateUserPageFrame p va pg = (false, pg) := if_pos h

theorem Isolated.openSpace (h : Isolated 0 pg) (buf : UInt32) :
    Isolated 0 (openSpace buf pg).2.2.2 := by
  show Isolated 0 (pagingAllocateUserPageFrame (pagingCreateNewPageDirectory pg).1 0xBFFFFFFC
    (pagingAllocateUserPageFrame (pagingCreateNewPageDirectory pg).1 buf
      (pagingCreateNewPageDirectory pg).2).2).2
  rcases create_cases pg with ⟨hall, he⟩ | ⟨i, hi, he⟩ <;> rw [he]
  · have h0 := h.no_frame hall
    rw [allocate_of_no_frame h0, allocate_of_no_frame h0]
    exact h
  · have hown : ∀ {pg' : Paging}, pg'.pageDirectoryUsed = (pg.openDirectory i).pageDirectoryUsed →
        (PageDirPtr.list i).Known ∧ ∀ d, PageDirPtr.list i = .list d →
          pg'.pageDirectoryUsed d = true := by
      intro pg' hpg
      refine ⟨Or.inr ⟨i, rfl⟩, fun d hd => ?_⟩
      rw [hpg, ← PageDirPtr.list.inj hd]
      exact Function.update_self ..
    have h1 := (h.openDirectory hi).allocate buf fun _ => hown rfl
    exact h1.allocate 0xBFFFFFFC fun _ => hown (allocate_used ..)

theorem Isolated.use (h : Isolated spare pg) (p : PageDirPtr) :
    Isolated spare (pagingUsePageDirectory p pg) :=
  ⟨h.free, h.reserved, h.mapped, h.once, h.pool, h.paid⟩

theorem Isolated.freed (h : Isolated spare pg) (p : PageDirPtr) :
    Isolated spare (pagingFreePageDirectory p pg).2 := by
  rcases free_cases p pg with ⟨i, -, he⟩ | ⟨-, he⟩ <;> rw [he]
  · exact h.closeDirectory i
  · exact h

/-! ## Steps of the kernel -/

variable {k k' : KernelState} {e : Event}

theorem Isolated.created (h : Isolated 0 k.paging) (request : ProcessRequest) (code : Int) :
    Isolated 0 (processCreateUserProcess request code k).2.paging := by
  rcases processCreate_cases request code k with ⟨-, c, -, he⟩ | ⟨-, -, he⟩ | ⟨-, -, he⟩ <;> rw [he]
  · exact h
  · rw [loading_paging]
    exact (h.openSpace _).use _
  · rw [created_paging, loading_paging]
    exact ((h.openSpace _).use _).use _

theorem Isolated.destroyed (h : Isolated 0 k.paging) (pid : UInt32) :
    Isolated 0 (processDestroy pid k).2.paging := by
  rcases processDestroy_cases pid k with ⟨-, he⟩ | ⟨-, he⟩ <;> rw [he]
  · exact h
  · rw [destroyed_paging]
    exact h.freed _

theorem Isolated.switched (h : Isolated 0 k.paging)
    (he : (schedulerSwitchToNextProcess k).map Prod.snd = some k') : Isolated 0 k'.paging := by
  obtain ⟨r, hr, rfl⟩ := Option.map_eq_some_iff.mp he
  rw [switch_paging hr]
  exact h.use _

theorem Isolated.event (h : Isolated 0 k.paging) (he : e.run k = some k') :
    Isolated 0 k'.paging := by
  cases e with
  | create request code =>
    cases he
    exact h.created request code
  | destroy pid =>
    cases he
    exact h.destroyed pid
  | exit =>
    obtain ⟨i, -, he⟩ := Option.bind_eq_some_iff.mp he
    exact (h.destroyed _).switched he
  | tick ctx => exact Isolated.switched (k := schedulerSaveContext ctx k) (by simpa using h) he
  | switch => exact h.switched he

theorem boot_paging (m : Surroundings) : (boot m).paging = (linkedPaging m).give 1 .kernel 0 := by
  have hf : firstFree 1 (linkedPaging m).pageFrameMap = some 1 := by
    show firstFree 1 (fun i : Fin 32 => decide (i.val = 0)) = some 1
    decide
  unfold boot pagingAllocateUserPageFrame
  dsimp only
  rw [if_neg (show (linkedPaging m).freePageFrameCount ≠ 0 from
    (by decide : (31 : UInt32) ≠ 0)), hf]
  rfl

theorem isolated_boot (m : Surroundings) : Isolated 0 (boot m).paging := by
  have hnot : ∀ p : PageDirPtr, p.Known → ∀ j, ¬ ((linkedPaging m).directory p j).User := by
    rintro p (rfl | ⟨i, rfl⟩) j hu
    · unfold linkedPaging at hu
      dsimp only at hu
      split_ifs at hu
      · exact absurd hu (by decide)
      · exact absurd hu (by decide)
    · exact absurd hu (show ¬ PageDirectoryEntry.zero.User by decide)
  have hlinked : Isolated 1 (linkedPaging m) := by
    refine ⟨?_, rfl, fun p hp j hu => absurd hu (hnot p hp j),
      fun p q hp _ i j hu => absurd hu (hnot p hp i), fun _ _ _ => rfl, Or.inl ?_⟩
    · show (31 : UInt32).toNat = count false fun i : Fin 32 => decide (i.val = 0)
      decide
    · show 2 * count true (fun _ : Fin 32 => false) + 2 ≤
        count true (fun i : Fin 32 => decide (i.val = 0)) + 1
      decide
  rw [boot_paging]
  exact hlinked.give (Or.inl rfl) (show (31 : UInt32) ≠ 0 by decide) (le_refl 1) rfl
    (fun _ hc => PageDirPtr.noConfusion hc) 0

/-! ## Runs -/

/-- The process numbers that the kernel is asked to destroy are those of the table. -/
def Event.InTable : Event → Prop
  | .destroy pid => pid.toNat < 16
  | _ => True

instance (e : Event) : Decidable e.InTable := by
  cases e <;> unfold Event.InTable <;> infer_instance

/-- No frame is mapped twice for user mode, and frame 0 never; a directory that is created maps
    the kernel and nothing else; when there is none to create, an allocation through the null
    pointer ends before it writes. -/
structure Separate (pg : Paging) : Prop where
  frames : ∀ p q : PageDirPtr, p.Known → q.Known → ∀ i j, (pg.directory p i).User →
    (pg.directory q j).User → (p, i) ≠ (q, j) →
    (pg.directory p i).lowerAddress ≠ (pg.directory q j).lowerAddress
  reserved : ∀ p : PageDirPtr, p.Known → ∀ i, (pg.directory p i).User →
    (pg.directory p i).lowerAddress ≠ 0
  fresh : ∀ i pg', pagingCreateNewPageDirectory pg = (.list i, pg') →
    pg'.directory (.list i) 0x300 = kernelEntry ∧
    ∀ j, (pg'.directory (.list i) j).flag.presentBit = true ↔ j = 0x300
  exhausted : ∀ pg', pagingCreateNewPageDirectory pg = (.null, pg') →
    (∀ i, pg.pageDirectoryUsed i = true) ∧
    ∀ va, pagingAllocateUserPageFrame .null va pg' = (false, pg')

theorem Isolated.separate (h : Isolated 0 pg) : Separate pg := by
  refine ⟨fun p q hp hq i j hu hv hne he => ?_, fun p hp i hu hc => ?_, fun i pg' he => ?_,
    fun pg' he => ?_⟩
  · obtain ⟨rfl, rfl⟩ := h.once p q hp hq i j hu hv he
    exact hne rfl
  · obtain ⟨f, h1, -, hf⟩ := h.mapped p hp i hu
    have := congrArg BitVec.toNat (hf.symm.trans hc)
    rw [BitVec.toNat_ofNat] at this
    simp at this
    omega
  · rcases create_cases pg with ⟨-, hc⟩ | ⟨i', hi, hc⟩ <;> rw [hc] at he
    · cases he
    · cases he
      refine ⟨?_, h.open_entry hi⟩
      unfold Paging.openDirectory
      dsimp only
      rw [Function.update_self, Function.update_self]
  · rcases create_cases pg with ⟨hall, hc⟩ | ⟨i', hi, hc⟩ <;> rw [hc] at he
    · cases he
      exact ⟨hall, allocate_of_no_frame (h.no_frame hall) _⟩
    · cases he

/-- Address spaces are separate in every state that is reached from the boot. -/
theorem address_spaces_isolated {m : Surroundings}
    (h : Runs Event.run (fun e _ => e.InTable) (boot m) k) : Separate k.paging :=
  (h.invariant (I := fun k => Isolated 0 k.paging) (fun _ _ _ hI _ he => hI.event he)
    (isolated_boot m)).separate

/-- A creation whose `read()` failed, and the destruction of what it left. -/
theorem address_spaces_isolated_boot :
    Separate (processDestroy 0
      (processCreateUserProcess ⟨0, fun _ => 0, 0⟩ (-1) (boot emptyMemory)).2).2.paging :=
  address_spaces_isolated
    (((Runs.refl (boot emptyMemory)).tail (e := .create ⟨0, fun _ => 0, 0⟩ (-1)) trivial rfl).tail
      (e := .destroy 0) (by decide) rfl)

end LossOs.Kernel
