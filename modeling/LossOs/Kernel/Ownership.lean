/-
  Which process has which page directory.

  `Owned`: the PCB of a process holds `NULL` or a directory in use that no other PCB holds, the
  PCB of a free slot holds `NULL`, and every directory in use maps the kernel. Every event keeps
  it (`Owned.event`).
-/
import LossOs.Kernel.ProcessTable

namespace LossOs.Kernel

open LossOs.Lib

variable {k k' : KernelState} {e : Event} {pid : UInt32} {pg : Paging} {buf : UInt32}

/-- The page directory in the PCB of slot `i`. -/
def KernelState.space (k : KernelState) (i : Fin 16) : PageDirPtr :=
  (k.processList i).context.pageDirectoryVirtualAddr

structure Owned (k : KernelState) : Prop where
  space : ∀ i, k.space i = .null ∨ ∃ d, k.space i = .list d ∧
    k.paging.pageDirectoryUsed d = true ∧ k.manager.isProcessActive i = true
  once : ∀ i j d, k.space i = .list d → k.space j = .list d → i = j
  kernelHalf : ∀ d, k.paging.pageDirectoryUsed d = true →
    k.paging.directory (.list d) 0x300 = kernelEntry

/-! ## New address spaces -/

/-- A new address space below the kernel has a directory of its own, or none at all. -/
theorem openSpace_cases (pg : Paging) (hbuf : ¬ 0xC0000000 ≤ buf) :
    ((∀ d, pg.pageDirectoryUsed d = true) ∧ (openSpace buf pg).1 = .null ∧
      (openSpace buf pg).2.2.2.pageDirectoryUsed = pg.pageDirectoryUsed ∧
      ∀ q : PageDirPtr, q ≠ .null → (openSpace buf pg).2.2.2.directory q = pg.directory q) ∨
    ∃ d, pg.pageDirectoryUsed d = false ∧ (openSpace buf pg).1 = .list d ∧
      (openSpace buf pg).2.2.2.pageDirectoryUsed = Function.update pg.pageDirectoryUsed d true ∧
      (∀ q : PageDirPtr, q ≠ .list d →
        (openSpace buf pg).2.2.2.directory q = pg.directory q) ∧
      (openSpace buf pg).2.2.2.directory (.list d) 0x300 = kernelEntry := by
  have hstack : (0x300 : Fin 1024) ≠ pageIndex 0xBFFFFFFC := by decide
  have hlow : (0x300 : Fin 1024) ≠ pageIndex buf := by
    intro hc
    have := pageIndex_lt hbuf
    rw [← hc] at this
    exact absurd this (by decide)
  rw [openSpace_eq]
  rcases create_cases pg with ⟨hall, he⟩ | ⟨d, hd, he⟩ <;> rw [he] <;> dsimp only
  · refine Or.inl ⟨hall, rfl, by rw [allocate_used, allocate_used], fun q hq => ?_⟩
    funext j
    rw [allocate_directory _ _ (Or.inl hq), allocate_directory _ _ (Or.inl hq)]
  · refine Or.inr ⟨d, hd, rfl, by rw [allocate_used, allocate_used]; rfl, fun q hq => ?_, ?_⟩
    · funext j
      rw [allocate_directory _ _ (Or.inl hq), allocate_directory _ _ (Or.inl hq)]
      exact congrFun (Function.update_of_ne hq ..) j
    · rw [allocate_directory _ _ (Or.inr hstack), allocate_directory _ _ (Or.inr hlow)]
      unfold Paging.openDirectory
      dsimp only
      rw [Function.update_self, Function.update_self]

/-! ## Steps -/

theorem space_update {i j : Fin 16} {pcb : ProcessControlBlock}
    (h : k'.processList = Function.update k.processList i pcb) :
    k'.space j = if j = i then pcb.context.pageDirectoryVirtualAddr else k.space j := by
  unfold KernelState.space
  rw [h]
  by_cases hj : j = i
  · rw [if_pos hj, hj, Function.update_self]
  · rw [if_neg hj, Function.update_of_ne fun hc => hj (Fin.ext (by omega))]

/-- A slot is taken, and its PCB gets a new directory, or keeps none. -/
theorem Owned.gain (h : Owned k) {i : Fin 16}
    (hflags : k'.manager.isProcessActive = Function.update k.manager.isProcessActive i true)
    (hspace : ∀ j, j ≠ i → k'.space j = k.space j)
    (hused : ∀ d, k.paging.pageDirectoryUsed d = true → k'.paging.pageDirectoryUsed d = true)
    (hnew : k'.space i = .null ∨ ∃ d, k'.space i = .list d ∧
      k.paging.pageDirectoryUsed d = false ∧ k'.paging.pageDirectoryUsed d = true)
    (hhalf : ∀ d, k'.paging.pageDirectoryUsed d = true →
      k'.paging.directory (.list d) 0x300 = kernelEntry) : Owned k' := by
  have hactive : ∀ j, j ≠ i → k'.manager.isProcessActive j = k.manager.isProcessActive j :=
    fun j hj => by rw [hflags, Function.update_of_ne hj]
  -- an old directory is in use, so it is not the new one
  have hother : ∀ j d, j ≠ i → k'.space j = .list d → k'.space i ≠ .list d := by
    intro j d hj hjd hid
    rw [hspace j hj] at hjd
    rcases h.space j with hn | ⟨d', hd', hu, -⟩
    · rw [hn] at hjd
      cases hjd
    · rw [hd'] at hjd
      cases hjd
      rcases hnew with hn | ⟨d', hd', hu', -⟩
      · rw [hn] at hid
        cases hid
      · rw [hd'] at hid
        cases hid
        rw [hu'] at hu
        cases hu
  refine ⟨fun j => ?_, fun j l d hj hl => ?_, hhalf⟩
  · by_cases hj : j = i
    · rw [hj]
      refine hnew.imp_right fun ⟨d, hd, _, hu⟩ => ⟨d, hd, hu, ?_⟩
      rw [hflags, Function.update_self]
    · rw [hspace j hj, hactive j hj]
      refine (h.space j).imp_right ?_
      rintro ⟨d, hd, hu, ha⟩
      exact ⟨d, hd, hused d hu, ha⟩
  · by_cases hji : j = i <;> by_cases hli : l = i
    · rw [hji, hli]
    · exact absurd (hji ▸ hj) (hother l d hli hl)
    · exact absurd (hli ▸ hl) (hother j d hji hj)
    · rw [hspace j hji] at hj
      rw [hspace l hli] at hl
      exact h.once j l d hj hl

/-- The tables a creation leaves, seen from the directories. -/
theorem opened_used (pg : Paging) (hbuf : ¬ 0xC0000000 ≤ buf) {d : Fin 32}
    (h : pg.pageDirectoryUsed d = true) :
    (openSpace buf pg).2.2.2.pageDirectoryUsed d = true := by
  rcases openSpace_cases pg hbuf with ⟨-, -, he, -⟩ | ⟨d', hd', -, he, -⟩ <;> rw [he]
  · exact h
  · by_cases hdd : d = d'
    · rw [hdd, Function.update_self]
    · rw [Function.update_of_ne hdd]
      exact h

theorem Owned.opened_half (h : Owned k) (hbuf : ¬ 0xC0000000 ≤ buf) {d : Fin 32}
    (hd : (openSpace buf k.paging).2.2.2.pageDirectoryUsed d = true) :
    (openSpace buf k.paging).2.2.2.directory (.list d) 0x300 = kernelEntry := by
  rcases openSpace_cases k.paging hbuf with ⟨-, -, he, hq⟩ | ⟨d', -, -, he, hq, hnew⟩
  · rw [he] at hd
    rw [hq _ PageDirPtr.noConfusion]
    exact h.kernelHalf d hd
  · by_cases hdd : d = d'
    · rw [hdd]
      exact hnew
    · rw [he, Function.update_of_ne hdd] at hd
      rw [hq _ fun hc => hdd (PageDirPtr.list.inj hc)]
      exact h.kernelHalf d hd

theorem Owned.created (h : Owned k) (hc : Coherent k) (request : ProcessRequest) (code : Int) :
    Owned (processCreateUserProcess request code k).2 := by
  rcases processCreate_cases request code k with
    ⟨-, c, -, he⟩ | ⟨hr, -, he⟩ | ⟨hr, -, he⟩ <;> rw [he]
  · exact h
  · have hbuf : ¬ 0xC0000000 ≤ request.buf := fun hb => hr (Or.inr (Or.inl hb))
    obtain ⟨i, hi⟩ := hc.exists_slot hr
    have hidle := (firstFree_eq_some hi).2.1
    obtain ⟨used, hl⟩ := loading_pcb request hi
    have hflags : (loading request k).manager.isProcessActive =
        Function.update k.manager.isProcessActive i true := by
      rw [loading_manager, inactiveIndex_eq hi]
    have hnull : k.space i = .null := by
      rcases h.space i with hn | ⟨d, -, -, ha⟩
      · exact hn
      · rw [hidle] at ha
        cases ha
    refine h.gain hflags (fun j hj => ?_) (fun d hd => ?_) (Or.inl ?_) fun d hd => ?_
    · rw [space_update hl, if_neg hj]
    · rw [loading_paging, use_pageDirectoryUsed]
      exact opened_used _ hbuf hd
    · rw [space_update hl, if_pos rfl]
      exact hnull
    · rw [loading_paging, use_pageDirectoryUsed] at hd
      rw [loading_paging, use_directory]
      exact h.opened_half hbuf hd
  · have hbuf : ¬ 0xC0000000 ≤ request.buf := fun hb => hr (Or.inr (Or.inl hb))
    obtain ⟨i, hi⟩ := hc.exists_slot hr
    have hidle := (firstFree_eq_some hi).2.1
    obtain ⟨pcb, hl, -, -, hdir⟩ := created_pcb request hi
    have hflags : (LossOs.Kernel.created request k).manager.isProcessActive =
        Function.update k.manager.isProcessActive i true := by
      rw [created_manager, inactiveIndex_eq hi]
    refine h.gain hflags (fun j hj => ?_) (fun d hd => ?_) ?_ fun d hd => ?_
    · rw [space_update hl, if_neg hj]
    · rw [created_paging, loading_paging, use_pageDirectoryUsed, use_pageDirectoryUsed]
      exact opened_used _ hbuf hd
    · rw [space_update hl, if_pos rfl, hdir, created_paging, loading_paging,
        use_pageDirectoryUsed, use_pageDirectoryUsed]
      rcases openSpace_cases k.paging hbuf with ⟨-, hn, -⟩ | ⟨d, hd, hn, he, -⟩
      · exact Or.inl hn
      · refine Or.inr ⟨d, hn, hd, ?_⟩
        rw [he, Function.update_self]
    · rw [created_paging, loading_paging, use_pageDirectoryUsed, use_pageDirectoryUsed] at hd
      rw [created_paging, loading_paging, use_directory, use_directory]
      exact h.opened_half hbuf hd

theorem destroyed_flags (k : KernelState) (hpid : pid.toNat < 16) (j : Fin 16) :
    ((releaseSpace pid (releaseSlot pid k)).setPcb pid.toNat .zero).manager.isProcessActive j =
      if j = ⟨pid.toNat, hpid⟩ then false else k.manager.isProcessActive j := by
  rw [setPcb_manager, releaseSpace_manager, releaseSlot_manager hpid]
  exact Function.update_apply ..

theorem destroyed_space (k : KernelState) (hpid : pid.toNat < 16) (j : Fin 16) :
    ((releaseSpace pid (releaseSlot pid k)).setPcb pid.toNat .zero).space j =
      if j = ⟨pid.toNat, hpid⟩ then .null else k.space j :=
  space_update (i := ⟨pid.toNat, hpid⟩) (destroyed_processList pid k)

/-- A destruction takes a slot and, if its PCB has one, a directory. -/
theorem Owned.destroyed (h : Owned k) (hpid : pid.toNat < 16) :
    Owned (processDestroy pid k).2 := by
  rcases processDestroy_cases pid k with ⟨-, he⟩ | ⟨-, he⟩ <;> rw [he]
  · exact h
  have hflags := destroyed_flags k hpid
  have hspace := destroyed_space k hpid
  have hpaging := destroyed_paging pid k
  rw [show (k.processList pid.toNat).context.pageDirectoryVirtualAddr =
    k.space ⟨pid.toNat, hpid⟩ from rfl] at hpaging
  generalize (releaseSpace pid (releaseSlot pid k)).setPcb pid.toNat .zero = k'
    at hflags hspace hpaging ⊢
  generalize (⟨pid.toNat, hpid⟩ : Fin 16) = i at hflags hspace hpaging
  -- the directory that is closed is that of the slot
  have hused : ∀ d, k.space i ≠ .list d →
      k'.paging.pageDirectoryUsed d = k.paging.pageDirectoryUsed d ∧
      k'.paging.directory (.list d) = k.paging.directory (.list d) := by
    intro d hd
    rw [hpaging]
    rcases free_cases (k.space i) k.paging with ⟨c, hc, he⟩ | ⟨-, he⟩ <;> rw [he]
    · have hdc : d ≠ c := fun hdc => hd (hdc ▸ hc)
      exact ⟨Function.update_of_ne hdc .., Function.update_of_ne
        (fun hc => hdc (PageDirPtr.list.inj hc)) ..⟩
    · exact ⟨rfl, rfl⟩
  refine ⟨fun j => ?_, fun j l d hj hl => ?_, fun d hd => ?_⟩
  · rw [hspace j]
    by_cases hj : j = i
    · rw [if_pos hj]
      exact Or.inl rfl
    · rw [if_neg hj]
      refine (h.space j).imp_right fun ⟨d, hd, hu, ha⟩ => ⟨d, hd, ?_, ?_⟩
      · rw [(hused d fun hc => hj (h.once j i d hd hc)).1]
        exact hu
      · rw [hflags, if_neg hj]
        exact ha
  · rw [hspace] at hj hl
    by_cases hji : j = i
    · rw [if_pos hji] at hj
      cases hj
    by_cases hli : l = i
    · rw [if_pos hli] at hl
      cases hl
    rw [if_neg hji] at hj
    rw [if_neg hli] at hl
    exact h.once j l d hj hl
  · by_cases hid : k.space i = .list d
    · rw [hpaging, hid] at hd
      rw [show (pagingFreePageDirectory (.list d) k.paging).2.pageDirectoryUsed d = false from
        Function.update_self ..] at hd
      cases hd
    · obtain ⟨h1, h2⟩ := hused d hid
      rw [h1] at hd
      rw [h2]
      exact h.kernelHalf d hd

theorem Owned.congr (h : Owned k) (hspace : ∀ i, k'.space i = k.space i)
    (hflags : k'.manager.isProcessActive = k.manager.isProcessActive)
    (hused : k'.paging.pageDirectoryUsed = k.paging.pageDirectoryUsed)
    (hdir : k'.paging.directory = k.paging.directory) : Owned k' := by
  refine ⟨fun i => ?_, fun i j d hi hj => ?_, fun d hd => ?_⟩
  · rw [hspace, hflags, hused]
    exact h.space i
  · rw [hspace] at hi hj
    exact h.once i j d hi hj
  · rw [hused] at hd
    rw [hdir]
    exact h.kernelHalf d hd

theorem Owned.saved (h : Owned k) (ctx : Context) : Owned (schedulerSaveContext ctx k) :=
  h.congr (fun i => (schedulerSaveContext_pcb k ctx i).2) (by simp) (by simp) (by simp)

theorem selectProcess_space (next : Int) (k : KernelState) (i : Fin 16) :
    (selectProcess next k).space i = k.space i := by
  obtain ⟨st, hst⟩ := selectProcess_pcb k next i
  unfold KernelState.space
  rw [hst]

theorem Owned.switched (h : Owned k)
    (he : (schedulerSwitchToNextProcess k).map Prod.snd = some k') : Owned k' := by
  obtain ⟨r, hr, rfl⟩ := Option.map_eq_some_iff.mp he
  obtain ⟨next, -, -, hr'⟩ := switch_cases hr
  rw [hr']
  refine h.congr (fun i => selectProcess_space next k i) ?_ ?_ ?_ <;> simp

theorem Owned.event (h : Owned k) (hc : Coherent k) (hok : e.InTable) (he : e.run k = some k') :
    Owned k' := by
  cases e with
  | create request code =>
    cases he
    exact h.created hc request code
  | destroy pid =>
    cases he
    exact h.destroyed hok
  | exit =>
    obtain ⟨i, -, he⟩ := Option.bind_eq_some_iff.mp he
    exact (h.destroyed (hc.pid i)).switched he
  | tick ctx => exact (h.saved ctx).switched he
  | switch => exact h.switched he

theorem boot_pcb (m : Surroundings) (i : Fin 16) : (boot m).processList i = .zero :=
  if_pos (by omega)

theorem owned_boot (m : Surroundings) : Owned (boot m) := by
  have hnull : ∀ i, (boot m).space i = .null := fun i => by
    unfold KernelState.space
    rw [boot_pcb]
    rfl
  have hused : ∀ d, (boot m).paging.pageDirectoryUsed d = false := fun d => by
    rw [boot_paging]
    rfl
  refine ⟨fun i => Or.inl (hnull i), fun i j d hi _ => ?_, fun d hd => ?_⟩
  · rw [hnull] at hi
    cases hi
  · rw [hused] at hd
    cases hd

end LossOs.Kernel
