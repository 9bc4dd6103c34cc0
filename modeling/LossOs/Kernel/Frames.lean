/-
  Physical memory.

  `free_page_frame_count` is the number of free frames in every run (`Isolated.free`). That a
  frame in use is reserved or mapped by a process that is active is `Backed`; `process_destroy`
  keeps it only for processes that have no frame, for it gives no frame back, and a creation
  only when the program does not lie in the page of its stack. `frames_conserved` is the run
  under these conditions, `frames_leaked` one round of creation and destruction without them.
-/
import LossOs.Kernel.Ownership

namespace LossOs.Kernel

open LossOs.Lib

variable {k k' : KernelState} {e : Event} {pid va buf : UInt32} {pg : Paging} {p : PageDirPtr}
  {P Q : PageDirPtr → Prop}

/-- One of the directories `P` maps frame `f` for user mode. -/
def MappedBy (P : PageDirPtr → Prop) (pg : Paging) (f : Fin 32) : Prop :=
  ∃ p, P p ∧ ∃ j, (pg.directory p j).User ∧
    (pg.directory p j).lowerAddress = BitVec.ofNat 10 f.val

/-- A frame in use is one of the two of the boot, or mapped by one of the directories `P`. -/
def Backed (P : PageDirPtr → Prop) (pg : Paging) : Prop :=
  ∀ f, pg.pageFrameMap f = true → f.val ≤ 1 ∨ MappedBy P pg f

/-- The directory of an active process. -/
def Owner (k : KernelState) (p : PageDirPtr) : Prop :=
  ∃ i, k.manager.isProcessActive i = true ∧ k.space i = p

/-! ## Steps on the page tables -/

theorem Backed.mono (h : Backed P pg) (hPQ : ∀ p, P p → (∃ j, (pg.directory p j).User) → Q p) :
    Backed Q pg := fun f hf =>
  (h f hf).imp_right fun ⟨p, hp, j, hu, he⟩ => ⟨p, hPQ p hp ⟨j, hu⟩, j, hu, he⟩

/-- Directories that map user pages are the same. -/
theorem Backed.remap {pg' : Paging} (h : Backed P pg) (hmap : pg'.pageFrameMap = pg.pageFrameMap)
    (hdir : ∀ p, P p → (∃ j, (pg.directory p j).User) → pg'.directory p = pg.directory p) :
    Backed P pg' := fun f hf =>
  (h f (hmap ▸ hf)).imp_right fun ⟨p, hp, j, hu, he⟩ => by
    have := hdir p hp ⟨j, hu⟩
    exact ⟨p, hp, j, by rw [this]; exact hu, by rw [this]; exact he⟩

/-- An allocation backs the frame that it gives, unless it takes the place of another. -/
theorem Backed.allocate (h : Backed P pg) (va : UInt32) (hp : P p)
    (hj : ¬ (pg.directory p (pageIndex va)).User ∨ pg.freePageFrameCount = 0) :
    Backed P (pagingAllocateUserPageFrame p va pg).2 := by
  rcases allocate_cases p va pg with ⟨-, he⟩ | ⟨-, -, he⟩ | ⟨i, h0, -, hi, he⟩ <;> rw [he]
  · exact h
  · exact h
  · have hj := hj.resolve_right h0
    intro f hf
    by_cases hfi : f = i
    · refine Or.inr ⟨p, hp, pageIndex va, ?_⟩
      unfold Paging.give
      dsimp only
      rw [Function.update_self, Function.update_self, hfi]
      exact ⟨⟨rfl, rfl⟩, rfl⟩
    · have hold : pg.pageFrameMap f = true := (Function.update_of_ne hfi ..).symm.trans hf
      refine (h f hold).imp_right fun ⟨q, hq, l, hu, hl⟩ => ⟨q, hq, l, ?_⟩
      have hne : q ≠ p ∨ l ≠ pageIndex va := by
        by_contra hc
        rw [not_or, not_not, not_not] at hc
        rw [hc.1, hc.2] at hu
        exact hj hu
      have hsame := allocate_directory va pg hne
      rw [he] at hsame
      rw [hsame]
      exact ⟨hu, hl⟩

/-- A new address space backs both of its frames, if it keeps them apart. -/
theorem Backed.openSpace (h : Backed P pg) (hI : Isolated 0 pg) {d : Fin 32}
    (hd : pg.pageDirectoryUsed d = false) (hopen : (openSpace buf pg).1 = .list d)
    (hfresh : ¬ P (.list d)) (hbuf : pageIndex buf = 0x2FF → pg.freePageFrameCount ≤ 1) :
    Backed (fun q => P q ∨ q = .list d) (openSpace buf pg).2.2.2 := by
  rw [openSpace_eq] at hopen ⊢
  rcases create_cases pg with ⟨hall, -⟩ | ⟨d', hd', he⟩
  · rw [hall d] at hd
    cases hd
  rw [he] at hopen ⊢
  cases hopen
  dsimp only
  have hnot := hI.open_not_user hd'
  have h0 : Backed (fun q => P q ∨ q = .list d) (pg.openDirectory d) := by
    have hsame : Backed P (pg.openDirectory d) := by
      refine h.remap rfl fun q hq _ => ?_
      have hqd : q ≠ .list d := by
        rintro rfl
        exact hfresh hq
      exact Function.update_of_ne hqd ..
    exact hsame.mono fun q hq _ => Or.inl hq
  have h1 := h0.allocate (p := .list d) buf (Or.inr rfl) (Or.inl (hnot _))
  refine h1.allocate (p := .list d) _ (Or.inr rfl) ?_
  -- the page of the stack is free, or there is no frame for it
  rcases allocate_cases (.list d) buf (pg.openDirectory d) with
    ⟨-, ha⟩ | ⟨-, -, ha⟩ | ⟨i, hne, -, -, ha⟩ <;> rw [ha] <;> dsimp only
  · exact Or.inl (hnot _)
  · exact Or.inl (hnot _)
  · by_cases hstack : pageIndex buf = 0x2FF
    · right
      have hle : pg.freePageFrameCount.toNat ≤ 1 := UInt32.le_iff_toNat_le.mp (hbuf hstack)
      have hne' : pg.freePageFrameCount.toNat ≠ 0 := fun hc => hne (UInt32.toNat_inj.mp hc)
      have h1 : pg.freePageFrameCount = 1 := UInt32.toNat_inj.mp (by
        rw [UInt32.toNat_one]
        omega)
      show pg.freePageFrameCount - 1 = 0
      rw [h1]
      rfl
    · left
      have hsame := allocate_directory (p := .list d) (q := .list d)
        (j := pageIndex 0xBFFFFFFC) buf (pg.openDirectory d) (Or.inr fun hc => hstack (hc ▸ rfl))
      rw [ha] at hsame
      rw [hsame]
      exact hnot _

/-! ## Steps of the kernel -/

/-- What a run without leaks keeps: all directories in use belong to active processes, of which
    each has one, and these back the frames in use. -/
structure Conserved (k : KernelState) : Prop where
  isolated : Isolated 0 k.paging
  coherent : Coherent k
  owned : Owned k
  spaces : ∀ i, k.manager.isProcessActive i = true → k.space i ≠ .null
  pool : ∀ d, k.paging.pageDirectoryUsed d = true → Owner k (.list d)
  backed : Backed (Owner k) k.paging

/-- A creation that succeeds and gives each of its two pages a place, or the destruction of a
    process that has no frame. -/
def Conserves : Event → KernelState → Prop
  | .create request code, k => (processCreateUserProcess request code k).1 = 0 ∧
      (pageIndex request.buf = 0x2FF → k.paging.freePageFrameCount ≤ 1)
  | .destroy pid, k => ∃ h : pid.toNat < 16, k.manager.isProcessActive ⟨pid.toNat, h⟩ = true →
      ∀ j, ¬ (k.paging.directory (k.space ⟨pid.toNat, h⟩) j).User
  | _, _ => False

/-- Sixteen processes cannot hold thirty-two directories. -/
theorem Conserved.exists_unused (h : Conserved k) : ∃ d, k.paging.pageDirectoryUsed d = false := by
  by_contra hc
  push Not at hc
  have howner : ∀ d, ∃ i, k.space i = .list d := fun d => by
    obtain ⟨i, -, hi⟩ := h.pool d (by simpa using hc d)
    exact ⟨i, hi⟩
  choose g hg using howner
  have hinj : Function.Injective g := fun a b hab => by
    have := hg a
    rw [hab, hg b] at this
    exact (PageDirPtr.list.inj this).symm
  have := Fintype.card_le_of_injective g hinj
  simp at this

theorem Conserved.created (h : Conserved k) {request : ProcessRequest} {code : Int}
    (hok : Conserves (.create request code) k) :
    Conserved (processCreateUserProcess request code k).2 := by
  have hI := h.isolated.created request code
  have hC := h.coherent.created request code
  have hO := h.owned.created h.coherent request code
  obtain ⟨hcode, hbuf⟩ := hok
  rcases processCreate_cases request code k with
    ⟨-, c, hc, he⟩ | ⟨-, -, he⟩ | ⟨hr, -, he⟩ <;> rw [he] at hcode hI hC hO ⊢
  · exact absurd hcode hc
  · cases hcode
  have hlow : ¬ 0xC0000000 ≤ request.buf := fun hb => hr (Or.inr (Or.inl hb))
  obtain ⟨i, hi⟩ := h.coherent.exists_slot hr
  have hidle := (firstFree_eq_some hi).2.1
  obtain ⟨pcb, hl, -, -, hdir⟩ := created_pcb request hi
  obtain ⟨d₀, hd₀⟩ := h.exists_unused
  rcases openSpace_cases k.paging hlow with ⟨hall, -⟩ | ⟨d, hd, hopen, hused, -⟩
  · rw [hall d₀] at hd₀
    cases hd₀
  have hflags : ∀ j, (LossOs.Kernel.created request k).manager.isProcessActive j =
      if j = i then true else k.manager.isProcessActive j := by
    intro j
    rw [created_manager, inactiveIndex_eq hi]
    dsimp only
    rw [Function.update_apply]
  have hspace : ∀ j, (LossOs.Kernel.created request k).space j =
      if j = i then .list d else k.space j := by
    intro j
    rw [space_update hl, hdir, hopen]
  have howner : ∀ q, Owner k q ∨ q = .list d → Owner (LossOs.Kernel.created request k) q := by
    rintro q (⟨j, hj, rfl⟩ | rfl)
    · have hji : j ≠ i := fun hc => by rw [hc, hidle] at hj; cases hj
      exact ⟨j, by rw [hflags, if_neg hji]; exact hj, by rw [hspace, if_neg hji]⟩
    · exact ⟨i, by rw [hflags, if_pos rfl], by rw [hspace, if_pos rfl]⟩
  have hfresh : ¬ Owner k (.list d) := by
    rintro ⟨j, -, hj⟩
    rcases h.owned.space j with hn | ⟨d', hd', hu, -⟩
    · rw [hn] at hj
      cases hj
    · rw [hd'] at hj
      cases hj
      rw [hd] at hu
      cases hu
  refine ⟨hI, hC, hO, fun j hj => ?_, fun c hc => ?_, ?_⟩
  · rw [hspace]
    by_cases hji : j = i
    · rw [if_pos hji]
      exact PageDirPtr.noConfusion
    · rw [if_neg hji]
      rw [hflags, if_neg hji] at hj
      exact h.spaces j hj
  · rw [created_paging, loading_paging, use_pageDirectoryUsed, use_pageDirectoryUsed, hused] at hc
    apply howner _
    by_cases hcd : c = d
    · exact Or.inr (congrArg _ hcd)
    · rw [Function.update_of_ne hcd] at hc
      exact Or.inl (h.pool c hc)
  · have hb : Backed (fun q => Owner k q ∨ q = .list d)
        (LossOs.Kernel.created request k).paging := by
      apply (h.backed.openSpace h.isolated hd hopen hfresh hbuf).remap
      · rw [created_paging, loading_paging, use_pageFrameMap, use_pageFrameMap]
      · intro q _ _
        rw [created_paging, loading_paging, use_directory, use_directory]
    exact hb.mono fun q hq _ => howner q hq

theorem Conserved.destroyed (h : Conserved k) (hok : Conserves (.destroy pid) k) :
    Conserved (processDestroy pid k).2 := by
  obtain ⟨hpid, hnone⟩ := hok
  have hI := h.isolated.destroyed pid
  have hC := h.coherent.destroyed hpid
  have hO := h.owned.destroyed hpid
  rcases processDestroy_cases pid k with ⟨-, he⟩ | ⟨ha, he⟩ <;> rw [he] at hI hC hO ⊢
  · exact h
  rw [isActive_of_lt hpid] at ha
  have hpaging := destroyed_paging pid k
  have hflags := destroyed_flags k hpid
  have hspace := destroyed_space k hpid
  rw [show (k.processList pid.toNat).context.pageDirectoryVirtualAddr =
    k.space ⟨pid.toNat, hpid⟩ from rfl] at hpaging
  have hnone := hnone ha
  have hsome := h.spaces _ ha
  generalize (releaseSpace pid (releaseSlot pid k)).setPcb pid.toNat .zero = k'
    at hpaging hflags hspace hI hC hO ⊢
  generalize (⟨pid.toNat, hpid⟩ : Fin 16) = i at hpaging hflags hspace hnone hsome ha
  obtain ⟨d, hd⟩ : ∃ d, k.space i = .list d := by
    rcases h.owned.space i with hn | ⟨d, hd, -⟩
    · exact absurd hn hsome
    · exact ⟨d, hd⟩
  rw [hd] at hpaging hnone
  have howner : ∀ q, Owner k q → q ≠ .list d → Owner k' q := by
    rintro q ⟨j, hj, rfl⟩ hne
    have hji : j ≠ i := fun hc => hne (hc ▸ hd)
    exact ⟨j, by rw [hflags, if_neg hji]; exact hj, by rw [hspace, if_neg hji]⟩
  refine ⟨hI, hC, hO, fun j hj => ?_, fun c hc => ?_, ?_⟩
  · have hji : j ≠ i := fun hc => by rw [hflags, if_pos hc] at hj; cases hj
    rw [hspace, if_neg hji]
    rw [hflags, if_neg hji] at hj
    exact h.spaces j hj
  · have hcd : c ≠ d := by
      rintro rfl
      rw [hpaging, show (pagingFreePageDirectory (.list c) k.paging).2.pageDirectoryUsed c = false
        from Function.update_self ..] at hc
      cases hc
    rw [hpaging] at hc
    exact howner _ (h.pool c ((Function.update_of_ne hcd ..).symm.trans hc))
      fun he => hcd (PageDirPtr.list.inj he)
  · have hkeep : ∀ q, Owner k q → (∃ j, (k.paging.directory q j).User) → q ≠ .list d := by
      rintro q - ⟨j, hu⟩ rfl
      exact hnone j hu
    rw [hpaging]
    have hb : Backed (Owner k') k.paging :=
      h.backed.mono fun q hq hu => howner q hq (hkeep q hq hu)
    refine hb.remap rfl fun q _ ⟨j, hu⟩ => ?_
    have hqd : q ≠ .list d := by
      rintro rfl
      exact hnone j hu
    exact Function.update_of_ne hqd ..

theorem Conserved.event (h : Conserved k) (hok : Conserves e k) (he : e.run k = some k') :
    Conserved k' := by
  cases e with
  | create request code =>
    cases he
    exact h.created hok
  | destroy pid =>
    cases he
    exact h.destroyed hok
  | exit => cases hok
  | tick ctx => cases hok
  | switch => cases hok

theorem conserved_boot (m : Surroundings) : Conserved (boot m) := by
  refine ⟨isolated_boot m, coherent_boot m, owned_boot m, fun i hi => ?_, fun d hd => ?_,
    fun f hf => Or.inl ?_⟩
  · cases hi
  · rw [boot_paging] at hd
    cases hd
  · rw [boot_paging] at hf
    unfold Paging.give at hf
    dsimp only at hf
    by_contra hc
    rw [Function.update_of_ne (fun h1 => hc (by rw [h1]; decide))] at hf
    have h0 : f.val = 0 := of_decide_eq_true hf
    omega

/-! ## Runs -/

/-- As long as no process with frames is destroyed and no program is put into the page of its
    stack, the counter counts the free frames and every other frame is reserved or mapped by an
    active process. -/
theorem frames_conserved {m : Surroundings} (h : Runs Event.run Conserves (boot m) k) :
    k.paging.freePageFrameCount.toNat = count false k.paging.pageFrameMap ∧
      Backed (Owner k) k.paging := by
  have hI := h.invariant (fun _ _ _ hI hok he => hI.event hok he) (conserved_boot m)
  exact ⟨hI.isolated.free, hI.backed⟩

theorem frames_conserved_boot :
    (processCreateUserProcess smallProgram 0 (boot emptyMemory)).2.paging.freePageFrameCount.toNat =
      count false (processCreateUserProcess smallProgram 0
        (boot emptyMemory)).2.paging.pageFrameMap ∧
      Backed (Owner (processCreateUserProcess smallProgram 0 (boot emptyMemory)).2)
        (processCreateUserProcess smallProgram 0 (boot emptyMemory)).2.paging :=
  frames_conserved ((Runs.refl (boot emptyMemory)).tail (e := .create smallProgram 0)
    ⟨by decide, fun hc => absurd hc (by decide)⟩ rfl)

/-- One round: a process is created and destroyed. Frame 2 stays in use, and no process is left
    that could map it. -/
theorem frames_leaked :
    (processCreateUserProcess smallProgram 0 (boot emptyMemory)).1 = 0 ∧
      (processDestroy 0 (processCreateUserProcess smallProgram 0 (boot emptyMemory)).2).1 = true ∧
      ¬ Backed (Owner (processDestroy 0
          (processCreateUserProcess smallProgram 0 (boot emptyMemory)).2).2)
        (processDestroy 0 (processCreateUserProcess smallProgram 0
          (boot emptyMemory)).2).2.paging := by
  refine ⟨by decide, by decide, fun h => ?_⟩
  rcases h 2 (by decide) with hc | ⟨p, ⟨i, hi, -⟩, -⟩
  · exact absurd hc (by decide)
  · have hnone : ∀ i, (processDestroy 0 (processCreateUserProcess smallProgram 0
        (boot emptyMemory)).2).2.manager.isProcessActive i = false := by decide
    rw [hnone i] at hi
    cases hi

end LossOs.Kernel
