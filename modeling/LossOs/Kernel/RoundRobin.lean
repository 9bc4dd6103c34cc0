/-
  Round robin over the process table.

  At most one active process is RUNNING, and it is the current one (`running_is_current`), so a
  timer interrupt saves into no other PCB. The calls of `scheduler_switch_to_next_process` in a
  run give each the next active process in turn (`round_robin_fair`). A call ends and stays
  inside `_process_list` exactly if a process is active and there has been a call before
  (`switch_in_table_iff`).
-/
import LossOs.Lib.RoundRobin
import LossOs.Kernel.Preempt

namespace LossOs.Kernel

open LossOs.Lib

variable {k k' s : KernelState} {e : Event} {i : Fin 16}

/-! ## The running process -/

/-- An active process with the state RUNNING. -/
def IsRunning (k : KernelState) (i : Fin 16) : Prop :=
  k.manager.isProcessActive i = true ∧ (k.processList i).processState = .running

/-- Only the current process runs, and only its PCB takes an interrupted context. -/
structure OnlyCurrentRuns (k : KernelState) : Prop where
  one : ∀ i j, IsRunning k i → IsRunning k j → i = j
  current : ∀ i, IsRunning k i → currentPid k = i
  saved : ∀ ctx, schedulerSaveContext ctx k = k ∨ ∃ i : Fin 16, IsRunning k i ∧
    currentPid k = i ∧ ∀ j : Int, j ≠ currentPid k →
      (schedulerSaveContext ctx k).processList j = k.processList j

theorem OneRunning.onlyCurrentRuns (h : OneRunning k) : OnlyCurrentRuns k where
  one := fun i j hi hj => by
    have := (h i hi.2).symm.trans (h j hj.2)
    exact Fin.ext (by exact_mod_cast this)
  current := fun i hi => h i hi.2
  saved := fun ctx => by
    unfold schedulerSaveContext
    cases hr : currentRunning k with
    | none => exact Or.inl rfl
    | some i =>
      have hi : IsRunning k i := currentRunning_some hr
      refine Or.inr ⟨i, hi, h i hi.2, fun j hj => ?_⟩
      rw [h i hi.2] at hj
      exact Function.update_of_ne hj ..

/-- In every state that the kernel comes to, only the current process runs. -/
theorem running_is_current {m : Surroundings}
    (h : Runs Event.run (fun e _ => e.InTable) (boot m) k) : OnlyCurrentRuns k := by
  have hinv : Coherent k ∧ OneRunning k := h.invariant (I := fun k => Coherent k ∧ OneRunning k)
    (fun _ _ _ ⟨hc, ho⟩ hok he => ⟨hc.event hok he, ho.event hc hok he⟩)
    ⟨coherent_boot m, oneRunning_boot m⟩
  exact hinv.2.onlyCurrentRuns

/-- The first process after the first switch. -/
theorem shellRunning_runs :
    Runs Event.run (fun e _ => e.InTable) (boot emptyMemory) shellRunning :=
  ((Runs.refl (boot emptyMemory)).tail (e := .create smallProgram 0) trivial rfl).tail
    (e := .switch) trivial shellRunning_eq

theorem running_is_current_shell : OnlyCurrentRuns shellRunning :=
  running_is_current shellRunning_runs

/-! ## The search -/

/-- `i` is the number of an active process. -/
def ActiveAt (k : KernelState) (i : Int) : Prop :=
  ∃ j : Fin 16, i = j ∧ k.manager.isProcessActive j = true

instance (k : KernelState) (i : Int) : Decidable (ActiveAt k i) := by
  unfold ActiveAt
  infer_instance

theorem activeAt_slot : ActiveAt k i ↔ k.manager.isProcessActive i = true := by
  constructor
  · rintro ⟨j, hj, ha⟩
    rwa [Fin.ext (a := i) (b := j) (by exact_mod_cast hj)]
  · exact fun h => ⟨i, rfl, h⟩

theorem ActiveAt.bounds {i : Int} (h : ActiveAt k i) : 0 ≤ i ∧ i < 16 := by
  obtain ⟨j, rfl, -⟩ := h
  omega

/-- One turn of the loop. -/
theorem nextActive_succ {n : Nat} {pid : Int} (hlo : -1 ≤ pid) :
    nextActive k (n + 1) pid =
      if ActiveAt k ((pid + 1) % 16) then some ((pid + 1) % 16)
      else nextActive k n ((pid + 1) % 16) := by
  obtain ⟨i, hi⟩ : ∃ i : Fin 16, (pid + 1) % 16 = i :=
    ⟨⟨((pid + 1) % 16).toNat, by omega⟩, by simp only; omega⟩
  have hstep : nextActive k (n + 1) pid =
      if k.isActive (UInt32.ofInt ((pid + 1).tmod 16)) then some ((pid + 1).tmod 16)
      else nextActive k n ((pid + 1).tmod 16) := rfl
  rw [hstep, Int.tmod_eq_emod_of_nonneg (by omega), hi, isActive_ofInt]
  simp only [activeAt_slot]

/-- The search finds the first active process that comes cyclically after. -/
theorem nextActive_some {n : Nat} {pid next : Int} (hlo : -1 ≤ pid)
    (h : nextActive k n pid = some next) :
    ∃ d : Nat, 1 ≤ d ∧ d ≤ n ∧ next = (pid + d) % 16 ∧ ActiveAt k next ∧
      ∀ c : Nat, 1 ≤ c → c < d → ¬ ActiveAt k ((pid + c) % 16) := by
  induction n generalizing pid with
  | zero => cases h
  | succ n ih =>
    rw [nextActive_succ hlo] at h
    by_cases ha : ActiveAt k ((pid + 1) % 16)
    · rw [if_pos ha, Option.some.injEq] at h
      subst h
      exact ⟨1, le_refl 1, by omega, rfl, ha, fun c h1 h2 => by omega⟩
    · rw [if_neg ha] at h
      obtain ⟨d, h1, hn, rfl, had, hbefore⟩ := ih (by omega) h
      refine ⟨d + 1, by omega, by omega, by push_cast; omega, had, fun c hc1 hcd => ?_⟩
      rcases Nat.eq_or_lt_of_le hc1 with rfl | hc
      · exact ha
      · have := hbefore (c - 1) (by omega) (by omega)
        rwa [show ((pid + 1) % 16 + (c - 1 : Nat)) % 16 = (pid + c) % 16 by omega] at this

theorem nextActive_none {n : Nat} {pid : Int} (hlo : -1 ≤ pid) (h : nextActive k n pid = none)
    {c : Nat} (h1 : 1 ≤ c) (hn : c ≤ n) : ¬ ActiveAt k ((pid + c) % 16) := by
  induction n generalizing pid c with
  | zero => omega
  | succ n ih =>
    rw [nextActive_succ hlo] at h
    by_cases ha : ActiveAt k ((pid + 1) % 16)
    · rw [if_pos ha] at h
      cases h
    · rw [if_neg ha] at h
      rcases Nat.eq_or_lt_of_le h1 with rfl | hc
      · exact ha
      · have := ih (by omega) h (c := c - 1) (by omega) (by omega)
        rwa [show ((pid + 1) % 16 + (c - 1 : Nat)) % 16 = (pid + c) % 16 by omega] at this

/-- Sixteen turns see every process. -/
theorem nextActive_isSome {pid : Int} (hlo : -1 ≤ pid)
    (h : ∃ i, k.manager.isProcessActive i = true) : ∃ next, nextActive k 16 pid = some next := by
  obtain ⟨i, hi⟩ := h
  cases hn : nextActive k 16 pid with
  | some next => exact ⟨next, rfl⟩
  | none =>
    have hw : (pid + (waiting 16 pid i + 1)) % 16 = i := add_waiting (n := 16) (by omega) (by omega)
    have hlt : waiting 16 pid i < 16 := waiting_lt_length (by omega) pid i
    obtain ⟨w, hw'⟩ := Int.eq_ofNat_of_zero_le (waiting_nonneg (n := 16) (by omega) pid i)
    rw [hw'] at hw hlt
    have := nextActive_none hlo hn (c := w + 1) (by omega) (by omega)
    rw [show (pid + (w + 1 : Nat)) % 16 = (i : Int) from hw] at this
    exact absurd (activeAt_slot.mpr hi) this

/-! ## Turns -/

/-- A destruction within the table does not move the current process. -/
theorem currentPid_destroyed {pid : UInt32} (hpid : pid.toNat < 16) :
    currentPid (processDestroy pid k).2 = currentPid k := by
  rcases processDestroy_cases pid k with ⟨-, he⟩ | ⟨-, he⟩ <;> rw [he]
  unfold currentPid
  rw [setPcb_manager, releaseSpace_manager, releaseSlot_manager hpid]

theorem currentPid_created (hc : Coherent k) (request : ProcessRequest) (code : Int) :
    currentPid (processCreateUserProcess request code k).2 = currentPid k := by
  rcases processCreate_cases request code k with
    ⟨-, c, -, he⟩ | ⟨hr, -, he⟩ | ⟨hr, -, he⟩ <;> rw [he]
  all_goals
    obtain ⟨i, hi⟩ := hc.exists_slot hr
    unfold currentPid
  · rw [loading_manager, inactiveIndex_eq hi]
  · rw [created_manager, inactiveIndex_eq hi]

/-- What comes before the switch does not move the current process. -/
theorem currentPid_beforeSwitch (hc : Coherent k) (hs : e.beforeSwitch k = some s) :
    currentPid s = currentPid k := by
  cases e with
  | create request code => cases hs
  | destroy pid => cases hs
  | exit =>
    obtain ⟨i, -, rfl⟩ := Option.map_eq_some_iff.mp hs
    exact currentPid_destroyed (hc.pid i)
  | tick ctx =>
    cases hs
    unfold currentPid
    rw [schedulerSaveContext_manager]
  | switch =>
    cases hs
    rfl

/-- An event without a switch does not move the current process. -/
theorem currentPid_quiet (hc : Coherent k) (hok : e.InTable) (hs : e.beforeSwitch k = none)
    (he : e.run k = some k') : currentPid k' = currentPid k := by
  cases e with
  | create request code =>
    cases he
    exact currentPid_created hc request code
  | destroy pid =>
    cases he
    exact currentPid_destroyed hok
  | exit =>
    obtain ⟨j, hj, -⟩ := Option.bind_eq_some_iff.mp he
    rw [Event.beforeSwitch, hj] at hs
    cases hs
  | tick ctx => cases hs
  | switch => cases hs

/-- A call goes to the next active process after the current one. -/
theorem call_nextAfter (hc : Coherent k) (hp : PidOk k) (hs : e.beforeSwitch k = some s)
    (he : e.run k = some k') : NextAfter 16 (ActiveAt s) (currentPid k) (currentPid k') := by
  rw [run_of_beforeSwitch hs] at he
  obtain ⟨r, hr, rfl⟩ := Option.map_eq_some_iff.mp he
  obtain ⟨next, hn, -, hr'⟩ := switch_cases hr
  obtain ⟨hlo, hhi⟩ := nextActive_range hn
  have hnew : currentPid r.2 = next := by
    rw [hr']
    exact currentPid_selected s hlo hhi
  rw [currentPid_beforeSwitch hc hs] at hn
  rw [hnew]
  exact nextActive_some hp.1 hn

/-- When some process is active, the call comes back. -/
theorem call_returns (hc : Coherent k) (hp : PidOk k) (hs : e.beforeSwitch k = some s)
    (ha : ∃ i, s.manager.isProcessActive i = true) : ∃ k', e.run k = some k' := by
  have hlo : -1 ≤ currentPid s := by
    rw [currentPid_beforeSwitch hc hs]
    exact hp.1
  obtain ⟨next, hn⟩ := nextActive_isSome hlo ha
  rw [run_of_beforeSwitch hs]
  unfold schedulerSwitchToNextProcess
  rw [hn]
  exact ⟨_, rfl⟩

/-- A run of events with process numbers of the table, and its calls of
    `scheduler_switch_to_next_process`: the state in which each call comes, and the process it
    goes to. -/
inductive Calls : KernelState → List (KernelState × Int) → KernelState → Prop where
  | refl (k : KernelState) : Calls k [] k
  | quiet {e : Event} {k k₁ k₂ : KernelState} {l : List (KernelState × Int)} :
      e.InTable → e.beforeSwitch k = none → e.run k = some k₁ → Calls k₁ l k₂ → Calls k l k₂
  | call {e : Event} {k s k₁ k₂ : KernelState} {l : List (KernelState × Int)} :
      e.InTable → e.beforeSwitch k = some s → e.run k = some k₁ → Calls k₁ l k₂ →
        Calls k ((s, currentPid k₁) :: l) k₂

/-- The calls, each with the processes that are active when it comes. -/
def activeTurns (l : List (KernelState × Int)) : List ((Int → Prop) × Int) :=
  l.map fun t => (ActiveAt t.1, t.2)

theorem activeTurns_selected (l : List (KernelState × Int)) :
    (activeTurns l).map Prod.snd = l.map Prod.snd := List.map_map ..

theorem Calls.tables {l : List (KernelState × Int)} (h : Calls k l k') (hc : Coherent k)
    (hp : PidOk k) : Coherent k' ∧ PidOk k' := by
  induction h with
  | refl => exact ⟨hc, hp⟩
  | quiet hok _ he _ ih => exact ih (hc.event hok he) (hp.event hc hok he)
  | call hok _ he _ ih => exact ih (hc.event hok he) (hp.event hc hok he)

theorem Calls.inTurn {l : List (KernelState × Int)} (h : Calls k l k') (hc : Coherent k)
    (hp : PidOk k) : InTurn 16 (currentPid k) (activeTurns l) := by
  induction h with
  | refl => trivial
  | quiet hok hs he _ ih =>
    rw [← currentPid_quiet hc hok hs he]
    exact ih (hc.event hok he) (hp.event hc hok he)
  | call hok hs he _ ih =>
    exact ⟨call_nextAfter hc hp hs he, ih (hc.event hok he) (hp.event hc hok he)⟩

theorem Calls.each {l : List (KernelState × Int)} (h : Calls k l k') (hc : Coherent k)
    (hp : PidOk k) : ∀ t ∈ l, NextAfter 16 (ActiveAt t.1) (currentPid t.1) t.2 := by
  induction h with
  | refl => exact fun t ht => absurd ht List.not_mem_nil
  | quiet hok hs he _ ih => exact ih (hc.event hok he) (hp.event hc hok he)
  | call hok hs he _ ih =>
    intro t ht
    rcases List.mem_cons.mp ht with rfl | ht
    · rw [currentPid_beforeSwitch hc hs]
      exact call_nextAfter hc hp hs he
    · exact ih (hc.event hok he) (hp.event hc hok he) t ht

/-- From boot on, every call goes to the first active process after the one of the call before,
    the first call to the first after -1; every call that finds an active process comes back;
    and a process that is active at sixteen calls in a row gets one of them. -/
theorem round_robin_fair {m : Surroundings} {l : List (KernelState × Int)}
    (h : Calls (boot m) l k) :
    InTurn 16 (-1) (activeTurns l) ∧
    (∀ t ∈ l, NextAfter 16 (ActiveAt t.1) (currentPid t.1) t.2) ∧
    (∀ (e : Event) (s : KernelState), e.beforeSwitch k = some s →
      (∃ i, s.manager.isProcessActive i = true) → ∃ k', e.run k = some k') ∧
    ∀ A B C, l = A ++ B ++ C → B.length = 16 → ∀ i : Fin 16,
      (∀ t ∈ B, t.1.manager.isProcessActive i = true) → (i : Int) ∈ B.map Prod.snd := by
  have hturn : InTurn 16 (-1) (activeTurns l) := h.inTurn (coherent_boot m) (pidOk_boot m)
  obtain ⟨hc, hp⟩ := h.tables (coherent_boot m) (pidOk_boot m)
  refine ⟨hturn, h.each (coherent_boot m) (pidOk_boot m), fun e s hs ha => call_returns hc hp hs ha,
    fun A B C hl hlen i hi => ?_⟩
  rw [hl, activeTurns, List.map_append, List.map_append] at hturn
  obtain ⟨prev, hB⟩ := hturn.left.right
  rw [← activeTurns_selected]
  refine hB.served (by omega) (by omega) (by omega) (fun t ht => ?_) ?_
  · obtain ⟨u, hu, rfl⟩ := List.mem_map.mp ht
    exact activeAt_slot.mpr (hi u hu)
  · rw [List.length_map]
    exact hlen.ge

/-- While a process is active, the scheduler can be called as often as one likes. -/
theorem calls_switch (hc : Coherent k) (hp : PidOk k)
    (ha : ∃ i, k.manager.isProcessActive i = true) (n : Nat) :
    ∃ l k', Calls k l k' ∧ l.length = n ∧
      k'.manager.isProcessActive = k.manager.isProcessActive ∧
      ∀ t ∈ l, t.1.manager.isProcessActive = k.manager.isProcessActive := by
  induction n generalizing k with
  | zero => exact ⟨[], k, .refl k, rfl, rfl, fun t ht => absurd ht List.not_mem_nil⟩
  | succ n ih =>
    obtain ⟨k₁, he⟩ := call_returns (e := .switch) hc hp rfl ha
    have hsame : k₁.manager.isProcessActive = k.manager.isProcessActive := by
      obtain ⟨r, hr, rfl⟩ := Option.map_eq_some_iff.mp he
      obtain ⟨next, -, -, hr'⟩ := switch_cases hr
      rw [hr']
      exact selectProcess_isProcessActive ..
    obtain ⟨l, k', hl, hlen, hend, hl'⟩ := ih (hc.event (e := .switch) trivial he)
      (hp.event (e := .switch) hc trivial he) (hsame ▸ ha)
    refine ⟨_, k', .call (e := .switch) trivial rfl he hl, congrArg (· + 1) hlen,
      hend.trans hsame, fun t ht => ?_⟩
    rcases List.mem_cons.mp ht with rfl | ht
    · rfl
    · exact (hl' t ht).trans hsame

/-- The first process gets the first call, and each of two one of the sixteen that follow. -/
theorem round_robin_fair_second : ∃ l k,
    Calls (boot emptyMemory) ((shellCreated, currentPid shellRunning) :: l) k ∧ l.length = 16 ∧
      InTurn 16 (-1) (activeTurns ((shellCreated, currentPid shellRunning) :: l)) ∧
      (∀ t ∈ l, NextAfter 16 (ActiveAt t.1) (currentPid t.1) t.2) ∧
      (∃ k', Event.switch.run k = some k') ∧ 0 ∈ l.map Prod.snd ∧ 1 ∈ l.map Prod.snd := by
  obtain ⟨hc, -, hp⟩ := tables_invariant
    (shellRunning_runs.tail (e := .create smallProgram 0) trivial rfl)
  have h0 : secondCreated.manager.isProcessActive 0 = true := by decide
  have h1 : secondCreated.manager.isProcessActive 1 = true := by decide
  obtain ⟨l, k, hl, hlen, hend, hsame⟩ := calls_switch (k := secondCreated) hc hp ⟨0, h0⟩ 16
  have hrun : Calls (boot emptyMemory) ((shellCreated, currentPid shellRunning) :: l) k :=
    .quiet (e := .create smallProgram 0) trivial rfl rfl
      (.call (e := .switch) trivial rfl shellRunning_eq
        (.quiet (e := .create smallProgram 0) trivial rfl rfl hl))
  obtain ⟨hturn, hnext, hback, hserved⟩ := round_robin_fair hrun
  have hall := hserved [(shellCreated, currentPid shellRunning)] l [] (by simp) hlen
  exact ⟨l, k, hrun, hlen, hturn, fun t ht => hnext t (List.mem_cons_of_mem _ ht),
    hback .switch k rfl ⟨0, by rw [hend]; exact h0⟩,
    hall 0 fun t ht => by rw [hsame t ht]; exact h0,
    hall 1 fun t ht => by rw [hsame t ht]; exact h1⟩

/-! ## The table -/

/-- The elements of `_process_list` that a call touches when it goes to `next`: the PCB that is
    read and set RUNNING, and that of the current process, which is set READY. -/
def switchAccesses (next : Int) (k : KernelState) : List Int :=
  next :: if next ≠ currentPid k then [currentPid k] else []

/-- The search comes to an active process within 16 turns, and the call stays in the table. -/
def SwitchOk (k : KernelState) : Prop :=
  ∃ next, nextActive k 16 (currentPid k) = some next ∧
    ∀ j ∈ switchAccesses next k, 0 ≤ j ∧ j < 16

theorem currentPid_eq_neg_one : currentPid k = -1 ↔ k.manager.currentRunningPid = 0xFFFFFFFF := by
  unfold currentPid
  generalize k.manager.currentRunningPid = pid
  constructor
  · intro h
    have hpid : pid.toInt32 = -1 := Int32.toInt_inj.mp (h.trans (by decide))
    rw [← UInt32.toUInt32_toInt32 pid, hpid]
    decide
  · rintro rfl
    decide

/-- Without an active process the loop never ends. -/
theorem nextActive_idle {n : Nat} {pid : Int} (hlo : -1 ≤ pid)
    (h : ∀ i, k.manager.isProcessActive i = false) : nextActive k n pid = none := by
  cases hn : nextActive k n pid with
  | none => rfl
  | some next =>
    obtain ⟨-, -, -, -, ⟨j, -, ha⟩, -⟩ := nextActive_some hlo hn
    rw [h j] at ha
    cases ha

/-- A call ends within 16 turns and stays in the table exactly if a process is active and
    there is a current one. -/
theorem switch_in_table_iff {m : Surroundings}
    (h : Runs Event.run (fun e _ => e.InTable) (boot m) k) (hs : e.beforeSwitch k = some s) :
    SwitchOk s ↔ (∃ i, s.manager.isProcessActive i = true) ∧
      s.manager.currentRunningPid ≠ 0xFFFFFFFF := by
  obtain ⟨hc, -, hp⟩ := tables_invariant h
  have hcur := currentPid_beforeSwitch hc hs
  have hlo : -1 ≤ currentPid s := hcur ▸ hp.1
  have hhi : currentPid s < 16 := hcur ▸ hp.2
  constructor
  · rintro ⟨next, hn, hin⟩
    obtain ⟨-, -, -, -, ha, -⟩ := nextActive_some hlo hn
    have h0 := ha.bounds.1
    obtain ⟨j, -, hj⟩ := ha
    refine ⟨⟨j, hj⟩, fun hcurrent => ?_⟩
    have hneg := currentPid_eq_neg_one.mpr hcurrent
    have := hin (-1) (by
      unfold switchAccesses
      rw [hneg, if_pos (by omega)]
      simp)
    omega
  · rintro ⟨ha, hcurrent⟩
    have hneg : currentPid s ≠ -1 := fun hneg => hcurrent (currentPid_eq_neg_one.mp hneg)
    obtain ⟨next, hn⟩ := nextActive_isSome hlo ha
    obtain ⟨-, -, -, -, ha', -⟩ := nextActive_some hlo hn
    refine ⟨next, hn, fun j hj => ?_⟩
    unfold switchAccesses at hj
    rcases List.mem_cons.mp hj with rfl | hj
    · exact ha'.bounds
    · split_ifs at hj
      · rw [List.mem_singleton.mp hj]
        omega
      · cases hj

theorem switch_in_table_iff_shell : SwitchOk shellRunning :=
  (switch_in_table_iff (e := .switch) shellRunning_runs rfl).mpr ⟨⟨0, by decide⟩, by decide⟩

/-- The first call of all sets element -1 to READY; and when the only process exits, the search
    does not end. -/
theorem switch_not_in_table :
    (Event.create smallProgram 0).run (boot emptyMemory) = some shellCreated ∧
      Event.switch.beforeSwitch shellCreated = some shellCreated ∧ ¬ SwitchOk shellCreated ∧
      Event.switch.run shellCreated = some shellRunning ∧
      Event.exit.beforeSwitch shellRunning = some (processDestroy 0 shellRunning).2 ∧
      ¬ SwitchOk (processDestroy 0 shellRunning).2 := by
  refine ⟨rfl, rfl, ?_, shellRunning_eq, ?_, ?_⟩
  · rintro ⟨next, hn, hin⟩
    obtain rfl := Option.some.inj (shellCreated_next.symm.trans hn)
    exact absurd (hin (-1) (by decide)) (by decide)
  · have hrun : currentRunning shellRunning = some 0 := by decide
    have hpid : (shellRunning.processList 0).pid = 0 := by decide
    rw [Event.beforeSwitch, hrun]
    show some (processDestroy (shellRunning.processList 0).pid shellRunning).2 = _
    rw [hpid]
  · rintro ⟨next, hn, -⟩
    rw [nextActive_idle (by decide) (by decide)] at hn
    cases hn

end LossOs.Kernel
