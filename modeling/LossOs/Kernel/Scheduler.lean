/-
  The search of the scheduler.

  From a `current_running_pid` that is -1 or in the table (`PidOk`, kept by every event), the
  loop of `scheduler_switch_to_next_process` only looks at slots of the table, and the process
  it finds is active (`nextActive_spec`).
-/
import LossOs.Kernel.Ownership
import Mathlib.Tactic.IntervalCases

namespace LossOs.Kernel

open LossOs.Lib

variable {k k' : KernelState} {e : Event} {pid : UInt32}

theorem ofInt_slot : ∀ i : Fin 16, UInt32.ofInt (i.val : Int) = UInt32.ofNat i.val := by decide

theorem isActive_ofInt (k : KernelState) (i : Fin 16) :
    k.isActive (UInt32.ofInt (i.val : Int)) = k.manager.isProcessActive i := by
  rw [ofInt_slot, isActive_slot]

/-- The turn after `pid` is at a slot of the table. -/
theorem next_slot {pid : Int} (hlo : -1 ≤ pid) (hhi : pid < 16) :
    ∃ i : Fin 16, (pid + 1).tmod 16 = (i.val : Int) := by
  refine ⟨⟨((pid + 1) % 16).toNat, by omega⟩, ?_⟩
  rw [Int.tmod_eq_emod_of_nonneg (by omega)]
  exact (Int.toNat_of_nonneg (by omega)).symm

/-- The loop stops at an active process. -/
theorem nextActive_spec {n : Nat} {pid next : Int} (hlo : -1 ≤ pid) (hhi : pid < 16)
    (h : nextActive k n pid = some next) :
    ∃ i : Fin 16, next = (i.val : Int) ∧ k.manager.isProcessActive i = true := by
  induction n generalizing pid with
  | zero => cases h
  | succ n ih =>
    obtain ⟨i, hi⟩ := next_slot hlo hhi
    unfold nextActive at h
    dsimp only at h
    rw [hi, isActive_ofInt] at h
    cases ha : k.manager.isProcessActive i with
    | true =>
      rw [ha, if_pos rfl, Option.some.injEq] at h
      exact ⟨i, h.symm, ha⟩
    | false =>
      rw [ha, if_neg Bool.false_ne_true] at h
      exact ih (by omega) (by omega) h

/-- `current_running_pid` is `NO_RUNNING_PROCESS` or a number of the table. -/
def PidOk (k : KernelState) : Prop := -1 ≤ currentPid k ∧ currentPid k < 16

theorem PidOk.congr (h : PidOk k)
    (hcur : k'.manager.currentRunningPid = k.manager.currentRunningPid) : PidOk k' := by
  unfold PidOk currentPid
  rw [hcur]
  exact h

/-- A turn of the loop is at a remainder modulo 16. -/
theorem nextActive_range {n : Nat} {pid next : Int} (h : nextActive k n pid = some next) :
    -16 < next ∧ next < 16 := by
  induction n generalizing pid with
  | zero => cases h
  | succ n ih =>
    unfold nextActive at h
    dsimp only at h
    split_ifs at h
    · rw [← Option.some.inj h]
      exact ⟨Int.lt_tmod_of_pos _ (by decide), Int.tmod_lt_of_pos _ (by decide)⟩
    · exact ih h

theorem currentPid_selected (k : KernelState) {next : Int} (hlo : -16 < next) (hhi : next < 16) :
    currentPid (selectProcess next k) = next := by
  show (UInt32.ofInt next).toInt32.toInt = next
  interval_cases next <;> rfl

theorem PidOk.switched (h : PidOk k)
    (he : (schedulerSwitchToNextProcess k).map Prod.snd = some k') : PidOk k' := by
  obtain ⟨r, hr, rfl⟩ := Option.map_eq_some_iff.mp he
  obtain ⟨next, hn, -, hr'⟩ := switch_cases hr
  obtain ⟨i, rfl, -⟩ := nextActive_spec h.1 h.2 hn
  refine PidOk.congr (k := selectProcess i k) ?_ (by rw [hr']; rfl)
  unfold PidOk
  rw [currentPid_selected k (by omega) (by omega)]
  omega

theorem PidOk.created (h : PidOk k) (hc : Coherent k) (request : ProcessRequest) (code : Int) :
    PidOk (processCreateUserProcess request code k).2 := by
  rcases processCreate_cases request code k with
    ⟨-, c, -, he⟩ | ⟨hr, -, he⟩ | ⟨hr, -, he⟩ <;> rw [he]
  · exact h
  · obtain ⟨i, hi⟩ := hc.exists_slot hr
    apply h.congr
    rw [loading_manager, inactiveIndex_eq hi]
  · obtain ⟨i, hi⟩ := hc.exists_slot hr
    apply h.congr
    rw [created_manager, inactiveIndex_eq hi]

theorem PidOk.destroyed (h : PidOk k) (hpid : pid.toNat < 16) : PidOk (processDestroy pid k).2 := by
  rcases processDestroy_cases pid k with ⟨-, he⟩ | ⟨-, he⟩ <;> rw [he]
  · exact h
  · apply h.congr
    rw [setPcb_manager, releaseSpace_manager, releaseSlot_manager hpid]

theorem PidOk.saved (h : PidOk k) (ctx : Context) : PidOk (schedulerSaveContext ctx k) :=
  h.congr (by rw [schedulerSaveContext_manager])

theorem PidOk.event (h : PidOk k) (hc : Coherent k) (hok : e.InTable) (he : e.run k = some k') :
    PidOk k' := by
  cases e with
  | create request code =>
    cases he
    exact h.created hc request code
  | destroy pid =>
    cases he
    exact h.destroyed hok
  | exit =>
    obtain ⟨i, -, he⟩ := Option.bind_eq_some_iff.mp he
    exact (h.destroyed (hc.pid i)).switched he
  | tick ctx => exact (h.saved ctx).switched he
  | switch => exact h.switched he

theorem pidOk_boot (m : Surroundings) : PidOk (boot m) := by
  show -1 ≤ (0xFFFFFFFF : UInt32).toInt32.toInt ∧ (0xFFFFFFFF : UInt32).toInt32.toInt < 16
  decide

end LossOs.Kernel
