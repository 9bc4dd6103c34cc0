/-
  Which programs `process_create_user_process` has memory for.

  The number of frames is rounded up on 32 bits, so it is the exact one modulo 1024
  (`framesNeeded_toNat`), and `paging_allocate_check`, which takes bytes, rounds it up once more:
  it asks for one frame, or for none (`allocateCheck_iff`). The check is the intended one except
  for sizes that wrap around and for programs that need more frames than are free
  (`admission_exact_iff`).
-/
import LossOs.Kernel.Process
import Mathlib.Algebra.Order.Floor.Div

namespace LossOs.Kernel

/-- The frames a program of `n` bytes needs together with its stack. -/
def exactFrames (n : Nat) : Nat := (n + 4194304) ⌈/⌉ 4194304

theorem exactFrames_eq (n : Nat) : exactFrames n = (n + 8388607) / 4194304 := by
  unfold exactFrames
  rw [Nat.ceilDiv_eq_add_pred_div]
  omega

section Check

variable {request : ProcessRequest} {code : Int} {k : KernelState} {pg : Paging}

/-- The addition before the division wraps around. -/
theorem framesNeeded_toNat :
    (framesNeeded request).toNat = exactFrames request.bufferSize.toNat % 1024 := by
  have hlt := request.bufferSize.toNat_lt
  unfold framesNeeded ceilDiv
  rw [UInt32.toNat_div, UInt32.toNat_sub, UInt32.toNat_add, UInt32.toNat_add, exactFrames_eq,
    show (4194304 : UInt32).toNat = 4194304 from rfl, show (1 : UInt32).toNat = 1 from rfl]
  omega

/-- A number of frames, taken for a number of bytes. -/
theorem allocateCheck_iff {amount : UInt32} (h : amount.toNat < 1024) :
    pagingAllocateCheck amount pg = true ↔ amount.toNat = 0 ∨ 1 ≤ pg.freePageFrameCount.toNat := by
  have hround : ((amount + 4194304 - 1) / 4194304).toNat = if amount.toNat = 0 then 0 else 1 := by
    rw [UInt32.toNat_div, UInt32.toNat_sub, UInt32.toNat_add,
      show (4194304 : UInt32).toNat = 4194304 from rfl, show (1 : UInt32).toNat = 1 from rfl]
    split <;> omega
  unfold pagingAllocateCheck
  rw [decide_eq_true_iff, UInt32.le_iff_toNat_le, hround]
  split <;> omega

/-- With a slot free and the entry point in user space, only memory can be lacking. -/
theorem create_admitted_iff (hslot : ¬ 16 ≤ k.manager.activeProcessCount)
    (hentry : ¬ 0xC0000000 ≤ request.buf) :
    (processCreateUserProcess request code k).1 ≠ 3 ↔
      pagingAllocateCheck (framesNeeded request) k.paging = true ∧
        (framesNeeded request).toNat ≤ 8 := by
  have hmax : 8 < framesNeeded request ↔ ¬ (framesNeeded request).toNat ≤ 8 := by
    rw [UInt32.lt_iff_toNat_lt, not_le]
    rfl
  unfold processCreateUserProcess
  rw [if_neg hslot, if_neg hentry]
  by_cases hmem : pagingAllocateCheck (framesNeeded request) k.paging = true ∧
      (framesNeeded request).toNat ≤ 8
  · refine iff_of_true ?_ hmem
    rw [if_neg fun hc => hc.elim (fun hc => by rw [hmem.1] at hc; cases hc) fun hc =>
      hmax.mp hc hmem.2]
    dsimp only
    split <;> exact of_decide_eq_true rfl
  · refine iff_of_false (fun hc => hc ?_) hmem
    rw [if_pos]
    rw [hmax]
    cases hcheck : pagingAllocateCheck (framesNeeded request) k.paging with
    | false => exact Or.inl rfl
    | true => exact Or.inr fun hle => hmem ⟨hcheck, hle⟩

end Check

/-- The creation gets past the memory check exactly when the program needs at most 8 frames and so
    many are free, if and only if it needs less than 1024, and not between two and eight with too
    few free; or it needs 1025 and none is free. -/
theorem admission_exact_iff {request : ProcessRequest} {code : Int} {k : KernelState}
    (hslot : ¬ 16 ≤ k.manager.activeProcessCount) (hentry : ¬ 0xC0000000 ≤ request.buf) :
    ((processCreateUserProcess request code k).1 ≠ 3 ↔
      exactFrames request.bufferSize.toNat ≤ 8 ∧
        exactFrames request.bufferSize.toNat ≤ k.paging.freePageFrameCount.toNat) ↔
    (exactFrames request.bufferSize.toNat < 1024 ∧
      (exactFrames request.bufferSize.toNat ≤ 8 → k.paging.freePageFrameCount.toNat = 0 ∨
        exactFrames request.bufferSize.toNat ≤ k.paging.freePageFrameCount.toNat)) ∨
    exactFrames request.bufferSize.toNat = 1025 ∧ k.paging.freePageFrameCount.toNat = 0 := by
  have hlt := request.bufferSize.toNat_lt
  have hmod : (framesNeeded request).toNat < 1024 := by
    rw [framesNeeded_toNat]
    exact Nat.mod_lt _ (by decide)
  rw [create_admitted_iff hslot hentry, allocateCheck_iff hmod, framesNeeded_toNat]
  have hK : 1 ≤ exactFrames request.bufferSize.toNat ∧
      exactFrames request.bufferSize.toNat ≤ 1025 := by
    rw [exactFrames_eq]
    omega
  generalize exactFrames request.bufferSize.toNat = K at hK ⊢
  generalize k.paging.freePageFrameCount.toNat = F
  omega

/-- A program of `n` bytes that starts at address 0. -/
def sizedProgram (n : UInt32) : ProcessRequest := ⟨0, fun _ => 0, n⟩

theorem exactFrames_exec : exactFrames (sizedProgram 0x100000).bufferSize.toNat = 2 :=
  exactFrames_eq _

theorem exactFrames_wrapped : exactFrames (sizedProgram 0xFFC00000).bufferSize.toNat = 1024 :=
  exactFrames_eq _

/-- A program of 1 MiB, the size that `exec` passes, finds its two frames. -/
theorem admission_exact_exec :
    (processCreateUserProcess (sizedProgram 0x100000) 0 (boot emptyMemory)).1 ≠ 3 ↔
      exactFrames (sizedProgram 0x100000).bufferSize.toNat ≤ 8 ∧
        exactFrames (sizedProgram 0x100000).bufferSize.toNat ≤
          (boot emptyMemory).paging.freePageFrameCount.toNat := by
  refine (admission_exact_iff (k := boot emptyMemory) (by decide) (by decide)).mpr (Or.inl ?_)
  rw [exactFrames_exec]
  decide

/-- The state after boot, with one frame left. -/
def oneFrame : KernelState :=
  { boot emptyMemory with paging := { (boot emptyMemory).paging with freePageFrameCount := 1 } }

/-- A program of almost 4 GiB gets in, and so does one of two frames when one is left. -/
theorem admission_not_exact :
    ¬ ((processCreateUserProcess (sizedProgram 0xFFC00000) 0 (boot emptyMemory)).1 ≠ 3 ↔
      exactFrames (sizedProgram 0xFFC00000).bufferSize.toNat ≤ 8 ∧
        exactFrames (sizedProgram 0xFFC00000).bufferSize.toNat ≤
          (boot emptyMemory).paging.freePageFrameCount.toNat) ∧
    ¬ ((processCreateUserProcess (sizedProgram 0x100000) 0 oneFrame).1 ≠ 3 ↔
      exactFrames (sizedProgram 0x100000).bufferSize.toNat ≤ 8 ∧
        exactFrames (sizedProgram 0x100000).bufferSize.toNat ≤
          oneFrame.paging.freePageFrameCount.toNat) := by
  rw [exactFrames_wrapped, exactFrames_exec]
  have hbig : (processCreateUserProcess (sizedProgram 0xFFC00000) 0 (boot emptyMemory)).1 = 0 := by
    decide
  have hlow : (processCreateUserProcess (sizedProgram 0x100000) 0 oneFrame).1 = 0 := by decide
  rw [hbig, hlow]
  decide

end LossOs.Kernel
