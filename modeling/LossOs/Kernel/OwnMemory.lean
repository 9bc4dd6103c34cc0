/-
  What the memory of a process is.

  As long as a process lives its directory is its own and in use (`space_kept`), and the pages of
  a directory in use change by stores under it and by nothing else (`Machine.Step.pages`). So in
  each run the memory of the process is what its own stores have made of it
  (`memory_own_stores`), whatever other processes, the scheduler, creations and destructions do.
-/
import LossOs.Kernel.PrivateMemory

namespace LossOs.Kernel

open LossOs.Lib

variable {k k' : KernelState} {i : Fin 16} {d : Fin 32} {e : Event} {pid : UInt32}

/-! ## The directory of a living process -/

/-- A creation takes a slot that is free. -/
theorem created_space (hc : Coherent k) (request : ProcessRequest) (code : Int)
    (hi : k.manager.isProcessActive i = true) :
    (processCreateUserProcess request code k).2.space i = k.space i := by
  have hother : ∀ {a : Fin 16}, firstFree 0 k.manager.isProcessActive = some a → i ≠ a := by
    rintro a ha rfl
    exact Bool.false_ne_true ((firstFree_eq_some ha).2.1.symm.trans hi)
  rcases processCreate_cases request code k with
    ⟨-, c, -, he⟩ | ⟨hr, -, he⟩ | ⟨hr, -, he⟩ <;> rw [he]
  · obtain ⟨a, ha⟩ := hc.exists_slot hr
    obtain ⟨used, hl⟩ := loading_pcb request ha
    exact (space_update hl).trans (if_neg (hother ha))
  · obtain ⟨a, ha⟩ := hc.exists_slot hr
    obtain ⟨pcb, hl, -⟩ := created_pcb request ha
    exact (space_update hl).trans (if_neg (hother ha))

/-- A process that is still there has not been destroyed. -/
theorem destroyed_kept (hpid : pid.toNat < 16)
    (hi : (processDestroy pid k).2.manager.isProcessActive i = true) :
    (processDestroy pid k).2.space i = k.space i := by
  rcases processDestroy_cases pid k with ⟨-, he⟩ | ⟨-, he⟩ <;> rw [he] at hi ⊢
  rw [destroyed_flags k hpid] at hi
  by_cases hip : i = ⟨pid.toNat, hpid⟩
  · rw [if_pos hip] at hi
    cases hi
  · exact (destroyed_space k hpid i).trans (if_neg hip)

theorem switched_kept (he : (schedulerSwitchToNextProcess k).map Prod.snd = some k') :
    k'.space i = k.space i ∧ k'.manager.isProcessActive = k.manager.isProcessActive := by
  obtain ⟨r, hr, rfl⟩ := Option.map_eq_some_iff.mp he
  obtain ⟨next, -, -, hr'⟩ := switch_cases hr
  rw [hr']
  exact ⟨selectProcess_space next k i, by simp⟩

/-- A process that is there before and after an event keeps its directory. -/
theorem space_kept (hc : Coherent k) (hok : e.InTable) (he : e.run k = some k')
    (hi : k.manager.isProcessActive i = true) (hi' : k'.manager.isProcessActive i = true) :
    k'.space i = k.space i := by
  cases e with
  | create request code =>
    cases he
    exact created_space hc request code hi
  | destroy pid =>
    cases he
    exact destroyed_kept hok hi'
  | exit =>
    obtain ⟨a, -, he⟩ := Option.bind_eq_some_iff.mp he
    obtain ⟨hs, hflags⟩ := switched_kept (i := i) he
    rw [hflags] at hi'
    exact hs.trans (destroyed_kept (hc.pid a) hi')
  | tick ctx =>
    obtain ⟨hs, -⟩ := switched_kept (i := i) he
    exact hs.trans (schedulerSaveContext_pcb k ctx i).2
  | switch => exact (switched_kept he).1

/-! ## Stores -/

/-- The pages of a directory, with what lies in them. -/
def Machine.pagesOf (m : Machine) (p : PageDirPtr) : Fin 1024 → Option Mem :=
  fun j => (spacesOf m).pages (p, j)

/-- A byte is stored in pages. -/
def writeAt (pages : Fin 1024 → Option Mem) (s : UInt32 × UInt8) : Fin 1024 → Option Mem :=
  Function.update pages (pageIndex s.1)
    ((pages (pageIndex s.1)).map fun page => wr8 page (pageOffset s.1) s.2)

/-- The store that is made under `p`, if it is one. -/
def Act.storeUnder (p : PageDirPtr) : Act → Option (UInt32 × UInt8)
  | .store q va b => if q = p then some (va, b) else none
  | _ => none

theorem storeUnder_store (p q : PageDirPtr) (va : UInt32) (b : UInt8) :
    (Act.store q va b).storeUnder p = if q = p then some (va, b) else none := rfl

variable {m m' : Machine} {ram₀ : BitVec 10 → Mem} {a : Act} {acts : List Act}

/-- A store changes the pages of its own directory. -/
theorem Machine.Sound.store_pages {va : UInt32} {b : UInt8} (hm : m.Sound ram₀)
    (hcr3 : m.cr3.Known) (hs : m.store va b = some m') (p : PageDirPtr) :
    m'.pagesOf p = ((Act.store m.cr3 va b).storeUnder p).elim (m.pagesOf p)
      (writeAt (m.pagesOf p)) := by
  obtain ⟨⟨hu, -⟩, hs⟩ := Option.ite_none_right_eq_some.mp hs
  obtain rfl := Option.some.inj hs
  have h := page_of_entry hcr3 hu
  have h' := hm.seen_store hcr3 hu (wr8 (m.ram (m.entry va).lowerAddress) (pageOffset va) b)
  funext j
  unfold Machine.pagesOf
  rw [storeUnder_store]
  refine (congrFun h' (p, j)).trans ?_
  show Function.update (spacesOf m).pages (m.cr3, pageIndex va) _ (p, j) = _
  by_cases hp : m.cr3 = p
  · subst hp
    rw [if_pos rfl]
    show _ = writeAt _ (va, b) j
    unfold writeAt
    dsimp only
    rw [h]
    by_cases hj : j = pageIndex va
    · rw [hj, Function.update_self, Function.update_self]
      rfl
    · rw [Function.update_of_ne hj, Function.update_of_ne fun hc => hj (Prod.mk.inj hc).2]
  · rw [if_neg hp, Function.update_of_ne fun hc => hp (Prod.mk.inj hc).1.symm]
    rfl

/-- The pages of a directory that stays in use change by the stores under it. -/
theorem Machine.Step.pages (h : m.Sound ram₀) (hs : m.Step a m')
    (hd : m.kernel.paging.pageDirectoryUsed d = true)
    (hd' : m'.kernel.paging.pageDirectoryUsed d = true) :
    m'.pagesOf (.list d) = (a.storeUnder (.list d)).elim (m.pagesOf (.list d))
      (writeAt (m.pagesOf (.list d))) := by
  cases hs with
  | load => rfl
  | fault => rfl
  | store hp hb =>
    exact h.store_pages hp hb _
  | create request code out hp hin => exact funext ((h.create hp hin).2.2 d hd)
  | event hnot _ he => exact funext ((h.event hnot he).2.2 d hd')

/-! ## Runs -/

/-- The invariant of the machine and of the process table. -/
structure Machine.Orderly (ram₀ : BitVec 10 → Mem) (m : Machine) : Prop extends
    m.Sound ram₀ where
  coherent : Coherent m.kernel
  owned : Owned m.kernel

theorem create_kernel (request : ProcessRequest) (code : Int) (out : Mem) (m : Machine) :
    (m.create request code out).kernel = (processCreateUserProcess request code m.kernel).2 := by
  unfold Machine.create
  dsimp only
  split <;> rfl

theorem Machine.Orderly.step (h : m.Orderly ram₀) (hs : m.Step a m') : m'.Orderly ram₀ := by
  have hsound := (h.toSound.step hs).1
  cases hs with
  | load => exact h
  | fault => exact h
  | store hp hb =>
    obtain ⟨-, hb⟩ := Option.ite_none_right_eq_some.mp hb
    obtain rfl := Option.some.inj hb
    exact ⟨hsound, h.coherent, h.owned⟩
  | create request code out =>
    refine ⟨hsound, ?_, ?_⟩ <;> rw [create_kernel]
    · exact h.coherent.created request code
    · exact h.owned.created h.coherent request code
  | event _ hok he => exact ⟨hsound, h.coherent.event hok he, h.owned.event h.coherent hok he⟩

theorem Machine.Step.space (h : m.Orderly ram₀) (hs : m.Step a m')
    (hi : m.kernel.manager.isProcessActive i = true)
    (hi' : m'.kernel.manager.isProcessActive i = true) : m'.kernel.space i = m.kernel.space i := by
  cases hs with
  | load => rfl
  | fault => rfl
  | store hp hb =>
    obtain ⟨-, hb⟩ := Option.ite_none_right_eq_some.mp hb
    obtain rfl := Option.some.inj hb
    rfl
  | create request code out =>
    rw [create_kernel]
    exact created_space h.coherent request code hi
  | event _ hok he => exact space_kept h.coherent hok he hi hi'

/-- Who has a directory is there, and the directory is in use. -/
theorem Owned.of_space (h : Owned k) (hd : k.space i = .list d) :
    k.paging.pageDirectoryUsed d = true ∧ k.manager.isProcessActive i = true := by
  rcases h.space i with hn | ⟨c, hc, hused, hact⟩
  · cases hd.symm.trans hn
  · obtain rfl := PageDirPtr.list.inj (hd.symm.trans hc)
    exact ⟨hused, hact⟩

theorem orderly_boot (s : Surroundings) (ram : BitVec 10 → Mem) :
    (bootMachine s ram).Orderly ram := ⟨sound_boot s ram, coherent_boot s, owned_boot s⟩

/-- The memory of a process that lives is what its own stores have made of it. -/
theorem memory_own_stores {s : Surroundings} {acts₀ : List Act}
    (hrun₀ : Execution Machine.Step (bootMachine s ram₀) acts₀ m)
    (hd : m.kernel.space i = .list d)
    (hrun : Execution (fun m a m' => m.Step a m' ∧ m'.kernel.manager.isProcessActive i = true)
      m acts m') :
    m'.kernel.space i = .list d ∧ m'.pagesOf (.list d) =
      (acts.filterMap (Act.storeUnder (.list d))).foldl writeAt (m.pagesOf (.list d)) := by
  have h : m.Orderly ram₀ := hrun₀.invariant (fun _ _ _ _ h hs => h.step hs) (orderly_boot s ram₀)
  clear hrun₀
  induction hrun with
  | nil m => exact ⟨hd, rfl⟩
  | @cons m m₁ m' a acts hstep _ ih =>
    obtain ⟨hs, hi'⟩ := hstep
    obtain ⟨hused, hi⟩ := h.owned.of_space hd
    have h₁ := h.step hs
    have hd₁ := (hs.space h hi hi').trans hd
    obtain ⟨hspace, hpages⟩ := ih hd₁ h₁
    refine ⟨hspace, hpages.trans ?_⟩
    rw [hs.pages h.toSound hused (h₁.owned.of_space hd₁).1, List.filterMap_cons]
    cases a.storeUnder (.list d) <;> rfl

/-- The process stores a byte. -/
def storedByte : Machine := (oneProcess.store 8 7).getD oneProcess

/-- Another one is created. -/
def twoProcesses : Machine := storedByte.create (sizedProgram 16) 0 fun _ => 2

/-- It runs. -/
def otherRuns : Machine :=
  ⟨(Event.switch.run twoProcesses.kernel).getD twoProcesses.kernel, twoProcesses.ram⟩

/-- It stores a byte at the same address. -/
def otherStored : Machine := (otherRuns.store 8 9).getD otherRuns

/-- Of two processes that store at one address the first keeps its byte. -/
theorem memory_own_stores_two : otherStored.kernel.space 0 = .list 0 ∧
    otherStored.pagesOf (.list 0) = [(8, 7)].foldl writeAt (oneProcess.pagesOf (.list 0)) := by
  have hin : (sizedProgram 16).InPage := show pageOffset 0 + 16 ≤ 4194304 by decide
  have h₁ : oneProcess.Step (.store oneProcess.cr3 8 7) storedByte :=
    .store (Or.inr ⟨0, by decide⟩) (eq_some_getD (by decide) _)
  have h₂ : storedByte.Step (.create (sizedProgram 16) 0 fun _ => 2) twoProcesses :=
    .create _ _ _ (Or.inr ⟨0, by decide⟩) hin
  have h₃ : twoProcesses.Step (.event .switch) otherRuns :=
    .event nofun trivial (eq_some_getD (by decide) _)
  have h₄ : otherRuns.Step (.store otherRuns.cr3 8 9) otherStored :=
    .store (Or.inr ⟨1, by decide⟩) (eq_some_getD (by decide) _)
  exact memory_own_stores (i := 0) (d := 0) oneProcess_run (by decide)
    (.cons ⟨h₁, by decide⟩ (.cons ⟨h₂, by decide⟩ (.cons ⟨h₃, by decide⟩
      (.single ⟨h₄, by decide⟩))))

end LossOs.Kernel
