/-
  The address space in CR3 maps the kernel.

  `Event.points` lists the states the kernel passes through while it handles an event, the last
  of them the one it returns in (`points_last`). With `Owned` from before, the directory in CR3
  stays in use and keeps its entry 0x300 at every point, unless an event destroys the process
  whose directory is loaded, goes to a process without one, or creates a process when there is
  no directory left (`KeepsLoaded`). `kernel_always_mapped` is the run from the first switch on.
-/
import LossOs.Kernel.Scheduler

namespace LossOs.Kernel

open LossOs.Lib

variable {k k' : KernelState} {e : Event} {pid va : UInt32} {pg : Paging} {d : Fin 32}
  {request : ProcessRequest} {code : Int}

/-! ## Points -/

instance (request : ProcessRequest) (k : KernelState) : Decidable (Refused request k) := by
  unfold Refused
  infer_instance

/-- The page tables while an address space is opened. -/
def openSpacePoints (buf : UInt32) (pg : Paging) : List Paging :=
  let (pdNew, pg₁) := pagingCreateNewPageDirectory pg
  let pg₂ := (pagingAllocateUserPageFrame pdNew buf pg₁).2
  [pg₁, pg₂, (pagingAllocateUserPageFrame pdNew 0xBFFFFFFC pg₂).2]

def createPoints (request : ProcessRequest) (code : Int) (k : KernelState) : List KernelState :=
  if Refused request k then [k]
  else
    let k₁ := (processListGetInactiveIndex k).2
    k₁ :: (openSpacePoints request.buf k₁.paging).map (fun pg => { k₁ with paging := pg }) ++
      ((reserveProcess request k).2.2 :: loading request k ::
        if code ≠ 0 then []
        else [(loading request k).usePageDirectory (pagingGetCurrentPageDirectoryAddr k.paging),
          created request k])

def destroyPoints (pid : UInt32) (k : KernelState) : List KernelState :=
  if !k.isActive pid then [k]
  else [releaseSlot pid k, releaseSpace pid (releaseSlot pid k),
    (releaseSpace pid (releaseSlot pid k)).setPcb pid.toNat .zero]

def switchPoints (k : KernelState) : List KernelState :=
  match nextActive k 16 (currentPid k) with
  | none => [k]
  | some next => [selectProcess next k, (selectProcess next k).usePageDirectory
      (k.processList next).context.pageDirectoryVirtualAddr]

/-- The states in which the kernel is while it handles an event. -/
def Event.points : Event → KernelState → List KernelState
  | .create request code, k => createPoints request code k
  | .destroy pid, k => destroyPoints pid k
  | .exit, k =>
      match currentRunning k with
      | none => [k]
      | some i => destroyPoints (k.processList i).pid k ++
          switchPoints (processDestroy (k.processList i).pid k).2
  | .tick ctx, k => schedulerSaveContext ctx k :: switchPoints (schedulerSaveContext ctx k)
  | .switch, k => switchPoints k

theorem switchPoints_last (h : (schedulerSwitchToNextProcess k).map Prod.snd = some k') :
    (switchPoints k).getLast? = some k' := by
  obtain ⟨r, hr, rfl⟩ := Option.map_eq_some_iff.mp h
  obtain ⟨next, hn, hctx, hr'⟩ := switch_cases hr
  unfold switchPoints
  rw [hn, hr', hctx]
  rfl

theorem destroyPoints_last (pid : UInt32) (k : KernelState) :
    (destroyPoints pid k).getLast? = some (processDestroy pid k).2 := by
  unfold destroyPoints processDestroy
  cases k.isActive pid <;> rfl

/-- The last point of an event is the state in which the kernel returns. -/
theorem points_last (h : e.run k = some k') : (e.points k).getLast? = some k' := by
  cases e with
  | create request code =>
    cases h
    show (createPoints request code k).getLast? = _
    unfold createPoints
    rcases processCreate_cases request code k with
      ⟨hr, c, -, he⟩ | ⟨hr, hcode, he⟩ | ⟨hr, hcode, he⟩ <;> rw [he]
    · rw [if_pos hr]
      rfl
    · rw [if_neg hr, if_pos hcode]
      rfl
    · rw [if_neg hr, if_neg (not_not.mpr hcode)]
      rfl
  | destroy pid =>
    cases h
    exact destroyPoints_last pid k
  | exit =>
    obtain ⟨i, hi, he⟩ := Option.bind_eq_some_iff.mp h
    show (match currentRunning k with
      | none => [k]
      | some i => destroyPoints (k.processList i).pid k ++
          switchPoints (processDestroy (k.processList i).pid k).2).getLast? = _
    rw [hi]
    dsimp only
    rw [List.getLast?_append, switchPoints_last he]
    rfl
  | tick ctx =>
    show (schedulerSaveContext ctx k :: switchPoints (schedulerSaveContext ctx k)).getLast? = _
    rw [List.getLast?_cons, switchPoints_last h]
    rfl
  | switch => exact switchPoints_last h

/-! ## Conditions -/

/-- The directory in CR3 is one of the pool, in use, and maps the kernel. -/
def KernelMapped (k : KernelState) : Prop :=
  ∃ d, k.paging.cr3 = .list d ∧ k.paging.pageDirectoryUsed d = true ∧
    (k.paging.directory (.list d) 0x300).flag.presentBit = true

/-- A process whose directory is not the one in CR3. -/
def Spares (pid : UInt32) (k : KernelState) : Prop :=
  ∃ h : pid.toNat < 16, k.manager.isProcessActive ⟨pid.toNat, h⟩ = true →
    k.space ⟨pid.toNat, h⟩ ≠ k.paging.cr3

/-- The next process has a directory. -/
def GoesToSpace (k : KernelState) : Prop :=
  ∀ next, nextActive k 16 (currentPid k) = some next →
    (k.processList next).context.pageDirectoryVirtualAddr ≠ .null

/-- The events after which, and in the course of which, CR3 holds a directory with the kernel. -/
def KeepsLoaded : Event → KernelState → Prop
  | .create request _, k => Refused request k ∨ ∃ d, k.paging.pageDirectoryUsed d = false
  | .destroy pid, k => Spares pid k
  | .exit, k => ∀ i, currentRunning k = some i →
      Spares (k.processList i).pid k ∧ GoesToSpace (processDestroy (k.processList i).pid k).2
  | .tick ctx, k => GoesToSpace (schedulerSaveContext ctx k)
  | .switch, k => GoesToSpace k

/-! ## Steps -/

/-- Directory `d` is loaded and maps the kernel. -/
structure LoadedAs (d : Fin 32) (pg : Paging) : Prop where
  cr3 : pg.cr3 = .list d
  used : pg.pageDirectoryUsed d = true
  entry : pg.directory (.list d) 0x300 = kernelEntry

theorem LoadedAs.kernelMapped (h : LoadedAs d k.paging) : KernelMapped k :=
  ⟨d, h.cr3, h.used, by rw [h.entry]; rfl⟩

theorem LoadedAs.openDirectory (h : LoadedAs d pg) {c : Fin 32} (hc : d ≠ c) :
    LoadedAs d (pg.openDirectory c) :=
  ⟨h.cr3, (Function.update_of_ne hc ..).trans h.used,
    (congrFun (Function.update_of_ne (fun he => hc (PageDirPtr.list.inj he)) ..) _).trans h.entry⟩

theorem LoadedAs.closeDirectory (h : LoadedAs d pg) {c : Fin 32} (hc : d ≠ c) :
    LoadedAs d (pg.closeDirectory c) :=
  ⟨h.cr3, (Function.update_of_ne hc ..).trans h.used,
    (congrFun (Function.update_of_ne (fun he => hc (PageDirPtr.list.inj he)) ..) _).trans h.entry⟩

theorem LoadedAs.allocate (h : LoadedAs d pg) {p : PageDirPtr} (hp : .list d ≠ p) (va : UInt32) :
    LoadedAs d (pagingAllocateUserPageFrame p va pg).2 :=
  ⟨(allocate_cr3 p va pg).trans h.cr3, (congrFun (allocate_used p va pg) d).trans h.used,
    (allocate_directory va pg (Or.inl hp)).trans h.entry⟩

theorem loadedAs_use (hu : pg.pageDirectoryUsed d = true)
    (he : pg.directory (.list d) 0x300 = kernelEntry) :
    LoadedAs d (pagingUsePageDirectory (.list d) pg) := ⟨rfl, hu, he⟩

/-- What holds after the first switch, with the directory that is loaded. -/
structure Running (k : KernelState) : Prop where
  coherent : Coherent k
  owned : Owned k
  pidOk : PidOk k
  loaded : ∃ d, LoadedAs d k.paging

/-- A switch goes to a process with a directory of its own. -/
theorem switchPoints_loaded (hp : PidOk k) (ho : Owned k) (hd : ∃ d, LoadedAs d k.paging)
    (hok : GoesToSpace k) : ∀ s ∈ switchPoints k, ∃ d, LoadedAs d s.paging := by
  intro s hs
  unfold switchPoints at hs
  cases hn : nextActive k 16 (currentPid k) with
  | none =>
    rw [hn] at hs
    rw [List.mem_singleton.mp hs]
    exact hd
  | some next =>
    rw [hn] at hs
    obtain ⟨i, rfl, -⟩ := nextActive_spec hp.1 hp.2 hn
    have hne := hok _ hn
    rcases List.mem_cons.mp hs with rfl | hs
    · rw [selectProcess_paging]
      exact hd
    · rw [List.mem_singleton.mp hs, usePageDirectory_paging, selectProcess_paging]
      rcases ho.space i with hnull | ⟨c, hc, hu, -⟩
      · exact absurd hnull hne
      · rw [show (k.processList i).context.pageDirectoryVirtualAddr = .list c from hc]
        exact ⟨c, loadedAs_use hu (ho.kernelHalf c hu)⟩

theorem destroyPoints_loaded (hd : ∃ d, LoadedAs d k.paging) (hok : Spares pid k) :
    ∀ s ∈ destroyPoints pid k, ∃ d, LoadedAs d s.paging := by
  obtain ⟨d, hd⟩ := hd
  obtain ⟨hpid, hne⟩ := hok
  have hclose : k.isActive pid = true →
      LoadedAs d (releaseSpace pid (releaseSlot pid k)).paging := by
    intro ha
    rw [isActive_of_lt hpid] at ha
    have hne := hne ha
    rw [hd.cr3] at hne
    show LoadedAs d (pagingFreePageDirectory _ _).2
    rw [releaseSlot_paging, releaseSlot_processList]
    rcases free_cases (k.processList pid.toNat).context.pageDirectoryVirtualAddr k.paging with
      ⟨c, hc, he⟩ | ⟨-, he⟩ <;> rw [he]
    · apply hd.closeDirectory
      rintro rfl
      exact hne hc
    · exact hd
  intro s hs
  unfold destroyPoints at hs
  cases ha : k.isActive pid with
  | false =>
    rw [ha, if_pos (by decide)] at hs
    rw [List.mem_singleton.mp hs]
    exact ⟨d, hd⟩
  | true =>
    rw [ha, if_neg (by decide)] at hs
    have hclose := hclose ha
    refine ⟨d, ?_⟩
    rcases List.mem_cons.mp hs with rfl | hs
    · rw [releaseSlot_paging]
      exact hd
    rcases List.mem_cons.mp hs with rfl | hs
    · exact hclose
    · rw [List.mem_singleton.mp hs]
      exact hclose

theorem createPoints_loaded (hd : ∃ d, LoadedAs d k.paging)
    (hok : KeepsLoaded (.create request code) k) :
    ∀ s ∈ createPoints request code k, ∃ d, LoadedAs d s.paging := by
  obtain ⟨d, hd⟩ := hd
  intro s hs
  unfold createPoints at hs
  by_cases hr : Refused request k
  · rw [if_pos hr] at hs
    rw [List.mem_singleton.mp hs]
    exact ⟨d, hd⟩
  rw [if_neg hr] at hs
  have hbuf : ¬ 0xC0000000 ≤ request.buf := fun hb => hr (Or.inr (Or.inl hb))
  obtain ⟨d₀, hd₀⟩ := hok.resolve_left hr
  rcases create_cases k.paging with ⟨hall, -⟩ | ⟨c, hc, he⟩
  · rw [hall d₀] at hd₀
    cases hd₀
  have hdc : d ≠ c := by
    rintro rfl
    rw [hd.used] at hc
    cases hc
  have hpc : PageDirPtr.list d ≠ .list c := fun h => hdc (PageDirPtr.list.inj h)
  -- the new directory next to the old one, which stays as it is
  have h1 := hd.openDirectory hdc
  have h2 := h1.allocate hpc request.buf
  have h3 := h2.allocate hpc 0xBFFFFFFC
  have hspace : (openSpace request.buf k.paging).2.2.2 = (pagingAllocateUserPageFrame (.list c)
      0xBFFFFFFC (pagingAllocateUserPageFrame (.list c) request.buf
        (k.paging.openDirectory c)).2).2 := by
    rw [openSpace_eq, he]
  have hload : LoadedAs c (loading request k).paging := by
    rw [loading_paging]
    rcases openSpace_cases k.paging hbuf with ⟨hall, -⟩ | ⟨c', -, hopen, hused, -, hentry⟩
    · rw [hall c] at hc
      cases hc
    · rw [openSpace_eq, he] at hopen
      cases hopen
      rw [show (openSpace request.buf k.paging).1 = .list c by rw [openSpace_eq, he]]
      exact loadedAs_use (by rw [hused, Function.update_self]) hentry
  have hback : LoadedAs d ((loading request k).usePageDirectory
      (pagingGetCurrentPageDirectoryAddr k.paging)).paging := by
    have hget : pagingGetCurrentPageDirectoryAddr k.paging = .list d := by
      unfold pagingGetCurrentPageDirectoryAddr
      rw [hd.cr3]
    rw [hget, usePageDirectory_paging, loading_paging, hspace]
    exact ⟨rfl, h3.used, h3.entry⟩
  rcases List.mem_append.mp hs with hs | hs
  · rcases List.mem_cons.mp hs with rfl | hs
    · rw [inactiveIndex_paging]
      exact ⟨d, hd⟩
    · obtain ⟨pg, hpg, rfl⟩ := List.mem_map.mp hs
      refine ⟨d, ?_⟩
      unfold openSpacePoints at hpg
      rw [inactiveIndex_paging, he] at hpg
      dsimp only at hpg ⊢
      rcases List.mem_cons.mp hpg with rfl | hpg
      · exact h1
      rcases List.mem_cons.mp hpg with rfl | hpg
      · exact h2
      · rw [List.mem_singleton.mp hpg]
        exact h3
  · rcases List.mem_cons.mp hs with rfl | hs
    · rw [reserveProcess_paging, hspace]
      exact ⟨d, h3⟩
    rcases List.mem_cons.mp hs with rfl | hs
    · exact ⟨c, hload⟩
    · by_cases hcode : code ≠ 0
      · rw [if_pos hcode] at hs
        cases hs
      · rw [if_neg hcode] at hs
        rcases List.mem_cons.mp hs with rfl | hs
        · exact ⟨d, hback⟩
        · rw [List.mem_singleton.mp hs]
          exact ⟨d, hback⟩

theorem Running.points (h : Running k) (hok : KeepsLoaded e k) :
    ∀ s ∈ e.points k, ∃ d, LoadedAs d s.paging := by
  cases e with
  | create request code => exact createPoints_loaded h.loaded hok
  | destroy pid => exact destroyPoints_loaded h.loaded hok
  | exit =>
    show ∀ s ∈ (match currentRunning k with
      | none => [k]
      | some i => destroyPoints (k.processList i).pid k ++
          switchPoints (processDestroy (k.processList i).pid k).2), ∃ d, LoadedAs d s.paging
    cases hi : currentRunning k with
    | none => exact fun s hs => by rw [List.mem_singleton.mp hs]; exact h.loaded
    | some i =>
      obtain ⟨hspare, hgo⟩ := hok i hi
      have hdestroy := destroyPoints_loaded h.loaded hspare
      intro s hs
      rcases List.mem_append.mp hs with hs | hs
      · exact hdestroy s hs
      · exact switchPoints_loaded (h.pidOk.destroyed (h.coherent.pid i))
          (h.owned.destroyed (h.coherent.pid i))
          (hdestroy _ (List.mem_of_getLast? (destroyPoints_last _ k))) hgo s hs
  | tick ctx =>
    intro s hs
    have hloaded : ∃ d, LoadedAs d (schedulerSaveContext ctx k).paging := by
      rw [schedulerSaveContext_paging]
      exact h.loaded
    rcases List.mem_cons.mp hs with rfl | hs
    · exact hloaded
    · exact switchPoints_loaded (h.pidOk.saved ctx) (h.owned.saved ctx) hloaded hok s hs
  | switch => exact switchPoints_loaded h.pidOk h.owned h.loaded hok

theorem KeepsLoaded.inTable (h : KeepsLoaded e k) : e.InTable := by
  cases e with
  | destroy pid => exact h.1
  | _ => trivial

theorem Running.event (h : Running k) (hok : KeepsLoaded e k) (he : e.run k = some k') :
    Running k' :=
  ⟨h.coherent.event hok.inTable he, h.owned.event h.coherent hok.inTable he,
    h.pidOk.event h.coherent hok.inTable he,
    h.points hok _ (List.mem_of_getLast? (points_last he))⟩

/-- The invariants of the tables, before any process runs. -/
theorem tables_invariant {m : Surroundings}
    (h : Runs Event.run (fun e _ => e.InTable) (boot m) k) : Coherent k ∧ Owned k ∧ PidOk k :=
  h.invariant (I := fun k => Coherent k ∧ Owned k ∧ PidOk k)
    (fun _ _ _ ⟨hc, ho, hp⟩ hok he => ⟨hc.event hok he, ho.event hc hok he, hp.event hc hok he⟩)
    ⟨coherent_boot m, owned_boot m, pidOk_boot m⟩

/-- The first switch loads the directory of a process. -/
theorem running_switch (hc : Coherent k) (ho : Owned k) (hp : PidOk k) (hok : GoesToSpace k)
    (he : Event.switch.run k = some k') : Running k' := by
  have he' : (schedulerSwitchToNextProcess k).map Prod.snd = some k' := he
  refine ⟨hc.switched he', ho.switched he', hp.switched he', ?_⟩
  obtain ⟨r, hr, rfl⟩ := Option.map_eq_some_iff.mp he'
  obtain ⟨next, hn, hctx, hr'⟩ := switch_cases hr
  obtain ⟨i, rfl, -⟩ := nextActive_spec hp.1 hp.2 hn
  rw [hr', hctx, usePageDirectory_paging, selectProcess_paging]
  rcases ho.space i with hnull | ⟨c, hs, hu, -⟩
  · exact absurd hnull (hok _ hn)
  · rw [show (k.processList i).context.pageDirectoryVirtualAddr = .list c from hs]
    exact ⟨c, loadedAs_use hu (ho.kernelHalf c hu)⟩

/-! ## Runs -/

/-- From the first switch on, as long as the events meet the condition, the directory in CR3 is
    in use and maps the kernel at every point. -/
theorem kernel_always_mapped {m : Surroundings} {k₀ k₁ : KernelState}
    (h₀ : Runs Event.run (fun e _ => e.InTable) (boot m) k₀) (hgo : GoesToSpace k₀)
    (hs : Event.switch.run k₀ = some k₁) (h : Runs Event.run KeepsLoaded k₁ k) :
    KernelMapped k ∧ ∀ e, KeepsLoaded e k → ∀ s ∈ e.points k, KernelMapped s := by
  obtain ⟨hc, ho, hp⟩ := tables_invariant h₀
  have hrun : Running k := h.invariant (fun _ _ _ hI hok he => hI.event hok he)
    (running_switch hc ho hp hgo hs)
  refine ⟨hrun.loaded.elim fun d hd => hd.kernelMapped, fun e hok s hmem => ?_⟩
  exact (hrun.points hok s hmem).elim fun d hd => hd.kernelMapped

/-! ## Two processes -/

/-- What a switch makes of the kernel, with the process and the directory that it finds. -/
theorem switch_run_eq {next : Int} {p : PageDirPtr}
    (hn : nextActive k 16 (currentPid k) = some next)
    (hp : (k.processList next).context.pageDirectoryVirtualAddr = p) :
    Event.switch.run k = some ((selectProcess next k).usePageDirectory p) := by
  show (schedulerSwitchToNextProcess k).map Prod.snd = _
  unfold schedulerSwitchToNextProcess
  rw [hn, ← hp]
  rfl

/-- The kernel when it has created its first process. -/
def shellCreated : KernelState := (processCreateUserProcess smallProgram 0 (boot emptyMemory)).2

/-- The kernel when it has switched to it. -/
def shellRunning : KernelState := (selectProcess 0 shellCreated).usePageDirectory (.list 0)

theorem shellCreated_next : nextActive shellCreated 16 (currentPid shellCreated) = some 0 := by
  decide

theorem shellCreated_space :
    (shellCreated.processList 0).context.pageDirectoryVirtualAddr = .list 0 := by decide

theorem shellRunning_eq : Event.switch.run shellCreated = some shellRunning :=
  switch_run_eq shellCreated_next shellCreated_space

/-- The kernel when the first process has created a second. -/
def secondCreated : KernelState := (processCreateUserProcess smallProgram 0 shellRunning).2

/-- The kernel when it has switched to that. -/
def secondRunning : KernelState := (selectProcess 1 secondCreated).usePageDirectory (.list 1)

theorem secondCreated_next : nextActive secondCreated 16 (currentPid secondCreated) = some 1 := by
  decide

theorem secondCreated_space :
    (secondCreated.processList 1).context.pageDirectoryVirtualAddr = .list 1 := by decide

theorem secondRunning_eq : Event.switch.run secondCreated = some secondRunning :=
  switch_run_eq secondCreated_next secondCreated_space

theorem goesToSpace_of {next : Int} {d : Fin 32}
    (hn : nextActive k 16 (currentPid k) = some next)
    (hp : (k.processList next).context.pageDirectoryVirtualAddr = .list d) : GoesToSpace k := by
  intro next' hn'
  obtain rfl := Option.some.inj (hn.symm.trans hn')
  rw [hp]
  exact PageDirPtr.noConfusion

/-- The first process runs, a second is created, and runs. -/
theorem kernel_always_mapped_second :
    KernelMapped secondRunning ∧
      ∀ e, KeepsLoaded e secondRunning → ∀ s ∈ e.points secondRunning, KernelMapped s :=
  kernel_always_mapped
    ((Runs.refl (boot emptyMemory)).tail (e := .create smallProgram 0) trivial rfl)
    (goesToSpace_of (k := shellCreated) shellCreated_next shellCreated_space) shellRunning_eq
    (((Runs.refl shellRunning).tail (e := .create smallProgram 0) (.inr ⟨1, by decide⟩) rfl).tail
      (e := .switch) (goesToSpace_of (k := secondCreated) secondCreated_next secondCreated_space)
      secondRunning_eq)

/-- The process exits: when its directory is given back, it is still the one in CR3. -/
theorem kernel_not_always_mapped :
    (Event.create smallProgram 0).run (boot emptyMemory) = some shellCreated ∧
      Event.switch.run shellCreated = some shellRunning ∧
      releaseSpace 0 (releaseSlot 0 shellRunning) ∈ Event.exit.points shellRunning ∧
      ¬ KernelMapped (releaseSpace 0 (releaseSlot 0 shellRunning)) := by
  have hrun : currentRunning shellRunning = some 0 := by decide
  have hpid : (shellRunning.processList 0).pid = 0 := by decide
  have hactive : shellRunning.isActive 0 = true := by decide
  refine ⟨rfl, shellRunning_eq, ?_, ?_⟩
  · show _ ∈ (match currentRunning shellRunning with
      | none => [shellRunning]
      | some i => destroyPoints (shellRunning.processList i).pid shellRunning ++
          switchPoints (processDestroy (shellRunning.processList i).pid shellRunning).2)
    rw [hrun]
    apply List.mem_append_left _
    show _ ∈ destroyPoints (shellRunning.processList 0).pid shellRunning
    rw [hpid]
    unfold destroyPoints
    rw [hactive, if_neg (by decide)]
    exact List.mem_cons_of_mem _ List.mem_cons_self
  · rintro ⟨d, hcr3, hused, -⟩
    have h0 : (releaseSpace 0 (releaseSlot 0 shellRunning)).paging.cr3 = .list 0 := by decide
    have h1 : (releaseSpace 0 (releaseSlot 0 shellRunning)).paging.pageDirectoryUsed 0 = false := by
      decide
    rw [h0] at hcr3
    cases hcr3
    rw [h1] at hused
    cases hused

end LossOs.Kernel
