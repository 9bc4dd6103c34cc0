/-
  `commands/kill.c`.

  `numeral` is the number that a string says, `atoi` what is left of it modulo 2^32
  (`atoi_eq`). The kernel takes that as an index without a bound, so `kill` destroys the process
  that was named, or none where none was named, exactly if the number is one of the table, or its
  remainder is the -1 of a string that is no number, or no flag is set where it points
  (`kill_named_iff`).
-/
import LossOs.Kernel.ProcessTable

namespace LossOs.Shell

open LossOs.Kernel

/-! ## The command -/

/-- The characters that `atoi` skips, and the digits. -/
def isBlank (c : UInt8) : Bool := c == 32 || c == 9

def isDigit (c : UInt8) : Bool := decide (48 ≤ c) && decide (c ≤ 57)

/-- The digit loop of `atoi`, on an `int` that wraps around. -/
def atoiLoop (sign : Int32) : (str : List UInt8) → (result : Int32) → (valid : Bool) → Int32
  | [], result, valid => if valid then sign * result else -1
  | c :: str, result, _ =>
      if isDigit c then atoiLoop sign str (result * 10 + Int32.ofInt (c.toNat - 48)) true else -1

def atoi (str : List UInt8) : Int32 :=
  let str := str.dropWhile isBlank
  if str.head? = some 45 then atoiLoop (-1) str.tail 0 false
  else if str.head? = some 43 then atoiLoop 1 str.tail 0 false
  else atoiLoop 1 str 0 false

/-- `kill`: the message, if any, and the kernel afterwards. -/
def kill (argv : List (List UInt8)) (k : KernelState) : Option String × KernelState :=
  match argv with
  | _ :: arg :: _ =>
      let pid := atoi arg
      if pid = -1 then (some "Invalid PID\n\n", k)
      else
        let (retCode, k) := processDestroy pid.toUInt32 k
        (if retCode then none else some "No such process\n\n", k)
  | _ => (some "Usage: kill <pid>\n\n", k)

/-! ## Numbers -/

/-- The value of a string of digits. -/
def decimal (digits : List UInt8) : Option Int :=
  if digits ≠ [] ∧ digits.all isDigit then
    some (digits.foldl (fun v c => v * 10 + (c.toNat - 48)) 0)
  else none

/-- The number that a string says behind its blanks, with or without a sign. -/
def numeral (str : List UInt8) : Option Int :=
  let str := str.dropWhile isBlank
  if str.head? = some 45 then (decimal str.tail).map fun v => -v
  else if str.head? = some 43 then decimal str.tail
  else decimal str

/-- Over digits the loop computes their value modulo 2^32. -/
theorem atoiLoop_digits (sign : Int32) {str : List UInt8} (h : str.all isDigit = true) (v : Int)
    (valid : Bool) (hvalid : valid = true ∨ str ≠ []) :
    atoiLoop sign str (Int32.ofInt v) valid =
      sign * Int32.ofInt (str.foldl (fun v c => v * 10 + (c.toNat - 48)) v) := by
  induction str generalizing v valid with
  | nil =>
    rw [atoiLoop, if_pos (hvalid.resolve_right fun h => h rfl)]
    rfl
  | cons c str ih =>
    rw [List.all_cons, Bool.and_eq_true] at h
    have hstep : Int32.ofInt v * 10 + Int32.ofInt (c.toNat - 48) =
        Int32.ofInt (v * 10 + (c.toNat - 48)) := by
      rw [Int32.ofInt_add, Int32.ofInt_mul]
      rfl
    rw [atoiLoop, if_pos h.1, hstep, List.foldl_cons]
    exact ih h.2 _ _ (Or.inl rfl)

theorem atoiLoop_other (sign : Int32) {str : List UInt8} (h : ¬ str.all isDigit = true)
    (result : Int32) (valid : Bool) : atoiLoop sign str result valid = -1 := by
  induction str generalizing result valid with
  | nil => exact absurd rfl h
  | cons c str ih =>
    rw [atoiLoop]
    by_cases hc : isDigit c = true
    · rw [if_pos hc]
      refine ih (fun h' => h ?_) _ _
      rw [List.all_cons, hc, h']
      rfl
    · rw [if_neg hc]

theorem atoiLoop_eq (sign : Int32) (str : List UInt8) :
    atoiLoop sign str 0 false = ((decimal str).map fun v => sign * Int32.ofInt v).getD (-1) := by
  unfold decimal
  by_cases hnil : str = []
  · rw [hnil]
    rfl
  by_cases hall : str.all isDigit = true
  · rw [if_pos ⟨hnil, hall⟩]
    exact atoiLoop_digits sign hall 0 false (Or.inr hnil)
  · rw [if_neg fun h => hall h.2]
    exact atoiLoop_other sign hall 0 false

/-- `atoi` is the number modulo 2^32, and -1 where there is none. -/
theorem atoi_eq (str : List UInt8) : atoi str = Int32.ofInt ((numeral str).getD (-1)) := by
  have hneg : ∀ v : Int, -1 * Int32.ofInt v = Int32.ofInt (-v) := by
    intro v
    rw [← Int.neg_one_mul v, Int32.ofInt_mul]
    rfl
  unfold atoi numeral
  dsimp only
  split_ifs
  · rw [atoiLoop_eq]
    cases decimal (str.dropWhile isBlank).tail with
    | none => rfl
    | some v => exact hneg v
  · rw [atoiLoop_eq]
    cases decimal (str.dropWhile isBlank).tail with
    | none => rfl
    | some v => exact Int32.one_mul _
  · rw [atoiLoop_eq]
    cases decimal (str.dropWhile isBlank) with
    | none => rfl
    | some v => exact Int32.one_mul _

/-! ## The victim -/

/-- The string says the number of a process that is active. -/
def Names (str : List UInt8) (k : KernelState) (i : Fin 16) : Prop :=
  numeral str = some i.val ∧ k.manager.isProcessActive i = true

/-- The process table has lost process `i` and nothing else. -/
structure Destroyed (i : Fin 16) (k k' : KernelState) : Prop where
  flags : k'.manager.isProcessActive = Function.update k.manager.isProcessActive i false
  count : k'.manager.activeProcessCount = k.manager.activeProcessCount - 1
  running : k'.manager.currentRunningPid = k.manager.currentRunningPid
  list : k'.processList = Function.update k.processList i .zero

/-- The process that is named is destroyed, and no other; where none is named, the table stays as
    it is. -/
structure KillOk (str : List UInt8) (k k' : KernelState) : Prop where
  named : ∀ i, Names str k i → Destroyed i k k'
  unnamed : (∀ i, ¬ Names str k i) → k'.manager = k.manager ∧ k'.processList = k.processList

/-- The number is one of the table; or its remainder modulo 2^32 is that of -1, or points to a
    flag that is not set. -/
def InReach (v : Int) (k : KernelState) : Prop :=
  (0 ≤ v ∧ v < 16) ∨ Int32.ofInt v = -1 ∨ k.isActive (Int32.ofInt v).toUInt32 = false

/-- Clearing a byte of a counter and taking 1 from it changes it, if the byte was not 0. -/
theorem setFlagByte_sub_ne {x : UInt32} {o : Nat} (ho : o < 4) (h : flagByte x o = true) :
    setFlagByte x o false - 1 ≠ x := by
  intro heq
  have hbyte : x.toNat / 256 ^ o % 256 ≠ 0 := by
    unfold flagByte at h
    simpa using h
  have hx := x.toNat_lt
  have hnat := congrArg UInt32.toNat heq
  unfold setFlagByte at hnat
  rw [UInt32.toNat_sub, UInt32.toNat_ofNat', Bool.toNat_false, Nat.zero_mul, Nat.add_zero,
    UInt32.toNat_one] at hnat
  obtain rfl | rfl | rfl | rfl : o = 0 ∨ o = 1 ∨ o = 2 ∨ o = 3 := by omega
  all_goals omega

/-- Whatever is destroyed, the counter changes. -/
theorem releaseSlot_count {k : KernelState} {pid : UInt32} (h : k.isActive pid = true) :
    (releaseSlot pid k).manager.activeProcessCount ≠ k.manager.activeProcessCount := by
  have hone : ∀ x : UInt32, x - 1 ≠ x := by
    intro x hx
    have hnat := congrArg UInt32.toNat hx
    rw [UInt32.toNat_sub, UInt32.toNat_one] at hnat
    have := x.toNat_lt
    omega
  unfold releaseSlot KernelState.setActive
  unfold KernelState.isActive at h
  split_ifs at h ⊢
  · exact hone _
  · exact setFlagByte_sub_ne (by omega) h
  · exact hone _
  · exact hone _

section KillNamed

variable {str : List UInt8} {k : KernelState} {v : Int}

/-- Nothing has changed, and nothing is named. -/
theorem killOk_same (h : ∀ i, ¬ Names str k i) : KillOk str k k :=
  ⟨fun i hi => absurd hi (h i), fun _ => ⟨rfl, rfl⟩⟩

theorem not_names (hn : numeral str = some v) (hv : ¬ (0 ≤ v ∧ v < 16)) (i : Fin 16) :
    ¬ Names str k i := by
  rintro ⟨hi, -⟩
  rw [hn] at hi
  have := Option.some.inj hi
  omega

/-- A number of the table is the index that the kernel gets. -/
theorem pid_slot (i : Fin 16) : (Int32.ofInt (i.val : Int)).toUInt32 = UInt32.ofNat i.val := by
  apply UInt32.toNat_inj.mp
  rw [toNat_slot]
  show (BitVec.ofInt 32 (i.val : Int)).toNat = i.val
  rw [BitVec.toNat_ofInt]
  omega

theorem pid_valid (i : Fin 16) : Int32.ofInt (i.val : Int) ≠ -1 := by
  intro h
  have hp := pid_slot i
  rw [h] at hp
  have hnat := congrArg UInt32.toNat hp
  rw [toNat_slot] at hnat
  have hmax : (Int32.toUInt32 (-1)).toNat = 4294967295 := by decide
  omega

/-- The kernel is given a number of the table. -/
theorem killOk_slot (i : Fin 16) (hn : numeral str = some i.val) :
    KillOk str k (processDestroy (UInt32.ofNat i.val) k).2 := by
  have honly : ∀ j, Names str k j → j = i := by
    rintro j ⟨hj, -⟩
    rw [hn] at hj
    have := Option.some.inj hj
    exact Fin.ext (by omega)
  have hlt : (UInt32.ofNat i.val).toNat < 16 := by
    rw [toNat_slot]
    exact i.isLt
  have hslot : (⟨(UInt32.ofNat i.val).toNat, hlt⟩ : Fin 16) = i := Fin.ext (toNat_slot i)
  rcases processDestroy_cases (UInt32.ofNat i.val) k with ⟨ha, he⟩ | ⟨ha, he⟩
  · rw [he]
    rw [isActive_slot] at ha
    apply killOk_same
    intro j hj
    obtain rfl := honly j hj
    exact Bool.false_ne_true (ha.symm.trans hj.2)
  · rw [he]
    rw [isActive_slot] at ha
    refine ⟨fun j hj => ?_, fun h => absurd ⟨hn, ha⟩ (h i)⟩
    obtain rfl := honly j hj
    have hm := releaseSlot_manager (k := k) hlt
    rw [hslot] at hm
    refine ⟨?_, ?_, ?_, ?_⟩
    · rw [setPcb_manager, releaseSpace_manager, hm]
    · rw [setPcb_manager, releaseSpace_manager, hm]
    · rw [setPcb_manager, releaseSpace_manager, hm]
    · rw [destroyed_processList, toNat_slot]

/-- `kill` destroys exactly the process that its argument names, if that is one that is active,
    exactly if the number, when there is one, is in reach. -/
theorem kill_named_iff (name str : List UInt8) (rest : List (List UInt8)) (k : KernelState) :
    KillOk str k (kill (name :: str :: rest) k).2 ↔
      ∀ v, numeral str = some v → InReach v k := by
  unfold kill
  dsimp only
  rw [atoi_eq]
  cases hn : numeral str with
  | none =>
    rw [if_pos (show Int32.ofInt (Option.getD none (-1)) = -1 from rfl)]
    refine iff_of_true (killOk_same fun i hi => ?_) nofun
    have := hi.1
    rw [hn] at this
    cases this
  | some v =>
    rw [Option.getD_some]
    have hsome : (∀ w, some v = some w → InReach w k) ↔ InReach v k :=
      ⟨fun h => h v rfl, fun h w hw => Option.some.inj hw ▸ h⟩
    rw [hsome]
    unfold InReach
    by_cases hin : 0 ≤ v ∧ v < 16
    · obtain ⟨i, rfl⟩ : ∃ i : Fin 16, v = i.val := ⟨⟨v.toNat, by omega⟩, by
        show v = (v.toNat : Int)
        omega⟩
      rw [if_neg (pid_valid i), pid_slot]
      exact iff_of_true (killOk_slot i hn) (Or.inl hin)
    have hnone := fun i => not_names (k := k) hn hin i
    by_cases hm : Int32.ofInt v = -1
    · rw [if_pos hm]
      exact iff_of_true (killOk_same hnone) (Or.inr (Or.inl hm))
    rw [if_neg hm]
    rcases processDestroy_cases (Int32.ofInt v).toUInt32 k with ⟨ha, he⟩ | ⟨ha, he⟩
    · rw [he]
      exact iff_of_true (killOk_same hnone) (Or.inr (Or.inr ha))
    · rw [he]
      refine iff_of_false (fun h => ?_) fun h => ?_
      · have hcount := congrArg ProcessManagerState.activeProcessCount (h.unnamed hnone).1
        rw [setPcb_manager, releaseSpace_manager] at hcount
        exact releaseSlot_count ha hcount
      · rcases h with h | h | h
        · exact hin h
        · exact hm h
        · rw [ha] at h
          cases h

end KillNamed

/-- One process, after the start. -/
def oneProcess : KernelState := (processCreateUserProcess smallProgram 0 (boot emptyMemory)).2

/-- `kill 0` destroys it. -/
theorem kill_named_zero :
    Destroyed 0 oneProcess (kill [[107, 105, 108, 108], [48]] oneProcess).2 := by
  have h := @kill_named_iff [107, 105, 108, 108] [48] [] oneProcess
  refine (h.mpr fun v hv => Or.inl ?_).named 0 ⟨by decide, by decide⟩
  obtain rfl : 0 = v := Option.some.inj ((show numeral [48] = some 0 by decide).symm.trans hv)
  decide

/-- So does `kill 4294967296`, and with `kill 16` the counter is taken for a flag. -/
theorem kill_unnamed :
    ¬ KillOk [52, 50, 57, 52, 57, 54, 55, 50, 57, 54] oneProcess
      (kill [[107, 105, 108, 108], [52, 50, 57, 52, 57, 54, 55, 50, 57, 54]] oneProcess).2 ∧
    ¬ KillOk [49, 54] oneProcess (kill [[107, 105, 108, 108], [49, 54]] oneProcess).2 := by
  have hwrong : ∀ {str : List UInt8} {v : Int}, numeral str = some v → ¬ (0 ≤ v ∧ v < 16) →
      (kill [[107, 105, 108, 108], str] oneProcess).2.manager.activeProcessCount ≠
        oneProcess.manager.activeProcessCount →
      ¬ KillOk str oneProcess (kill [[107, 105, 108, 108], str] oneProcess).2 := by
    intro str v hn hv hcount h
    exact hcount (congrArg _ (h.unnamed fun i => not_names hn hv i).1)
  refine ⟨hwrong (v := 4294967296) ?_ ?_ ?_, hwrong (v := 16) ?_ ?_ ?_⟩
  all_goals decide

end LossOs.Shell
