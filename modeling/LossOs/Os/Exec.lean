/-
  Programs are loaded from the file system.

  `System` is the machine with its disk: processes run, files are written and deleted, programs
  are started, and the power may go off and on again. To start a program the kernel opens an
  address space and calls `read()` under it. `exec_loads` is about every state such a system can
  reach: a program that the store holds is started, its bytes lie where it was asked for in an
  address space that nobody else has, and no other memory changes.
-/
import LossOs.Kernel.OwnMemory
import LossOs.Ext2.StoreRefines

namespace LossOs.Os

open LossOs.Lib LossOs.Kernel
open LossOs.Ext2 (Fs FileStore EXT2DriverRequest requestName Mounted storeOf rootStore)

/-- The `struct EXT2DriverRequest` of a program; `buf` is the address it goes to. -/
structure ProgramRequest where
  buf : UInt32
  name : Mem
  nameLen : UInt8
  parentInode : UInt32
  bufferSize : UInt32
  isDirectory : Bool

namespace ProgramRequest

/-- What process creation looks at. -/
def process (r : ProgramRequest) : ProcessRequest := ⟨r.buf, r.name, r.bufferSize⟩

/-- `local_request`, with the memory behind `buf` and with the copy of the name. -/
def localRequest (r : ProgramRequest) (buf : Mem) : EXT2DriverRequest :=
  ⟨buf, fun o => if o < r.nameLen.toNat then r.name o else 0, r.nameLen, r.parentInode,
    r.bufferSize, r.isDirectory⟩

end ProgramRequest

structure System where
  machine : Machine
  fs : Fs

/-- `process_create_user_process` with `read()`; the code, and the system it leaves. -/
def System.exec (r : ProgramRequest) (stack : Mem) (s : System) : Int × System :=
  let m : Machine := { s.machine with kernel := loading r.process s.machine.kernel }
  let frame := m.ram (m.entry r.buf).lowerAddress
  let res := LossOs.Ext2.read (r.localRequest (view frame (pageOffset r.buf)))
    (s.fs.withStack stack)
  ((processCreateUserProcess r.process res.1 s.machine.kernel).1,
    { s with machine := s.machine.create r.process res.1 res.2 })

inductive SysAct where
  | machine (a : Act)
  | exec (r : ProgramRequest)
  | file (e : LossOs.Ext2.Event)
  | powerOn

/-- What of it the file system takes part in. -/
def SysAct.fileEvents : SysAct → List LossOs.Ext2.Event
  | .file e => [e]
  | .powerOn => [.reboot]
  | _ => []

/-- The steps of the system. What is in the page frames when the power comes on is `clean`. -/
inductive System.Step (clean : Mem → Prop) : System → SysAct → System → Prop
  | machine {s : System} {a : Act} {m : Machine} :
      (∀ request code out, a ≠ .create request code out) → s.machine.Step a m →
      Step clean s (.machine a) { s with machine := m }
  | exec {s : System} (r : ProgramRequest) (stack : Mem) : s.machine.cr3.Known →
      r.process.InPage → Step clean s (.exec r) (s.exec r stack).2
  | file {s : System} {e : LossOs.Ext2.Event} {fs : Fs} : e ≠ .reboot →
      LossOs.Ext2.Service s.fs e fs → Step clean s (.file e) { s with fs := fs }
  | powerOn {s : System} (m : Surroundings) (ram : BitVec 10 → Mem) (memory : Fs) :
      (∀ f, clean (ram f)) → memory.disk = s.fs.disk →
      Step clean s .powerOn ⟨bootMachine m ram, LossOs.Ext2.initializeFilesystemExt2 memory⟩

/-- What a program finds: a slot of the process table with a directory of its own, its first
    bytes from its entry point on, and everybody else as they were. -/
structure Loads (clean : Mem → Prop) (r : ProgramRequest) (bs : List UInt8) (s s' : System)
    (i : Fin 16) (d : Fin 32) : Prop where
  idle : s.machine.kernel.manager.isProcessActive i = false
  active : s'.machine.kernel.manager.isProcessActive i = true
  space : s'.machine.kernel.space i = .list d
  entry : (s'.machine.kernel.processList i).context.eip = r.buf
  ready : (s'.machine.kernel.processList i).processState = .ready
  unused : s.machine.kernel.paging.pageDirectoryUsed d = false
  program : ∃ page, clean page ∧ s'.machine.pagesOf (.list d) (pageIndex r.buf) =
    some (blit page (pageOffset r.buf) (fun k => bs.getD k 0) bs.length)
  stack : ∀ j, j ≠ pageIndex r.buf → s'.machine.pagesOf (.list d) j = none ∨
    j = pageIndex 0xBFFFFFFC ∧ ∃ page, clean page ∧ s'.machine.pagesOf (.list d) j = some page
  others : ∀ p : PageDirPtr, p ≠ .list d → s'.machine.pagesOf p = s.machine.pagesOf p
  current : s'.machine.cr3 = s.machine.cr3

section Create

variable {m : Machine} {ram₀ : BitVec 10 → Mem} {clean : Mem → Prop} {r : ProgramRequest}
  {k : KernelState} {i : Fin 16}

theorem created_entry (request : ProcessRequest)
    (h : firstFree 0 k.manager.isProcessActive = some i) :
    ((created request k).processList i).context.eip = request.buf := by
  unfold created startProcess
  rw [reserveProcess_index request h, toNat_slot, setPcb_processList, Function.update_self]

/-- Bytes over what lay there before, as `read()` leaves them. -/
theorem blit_over (page : Mem) (o n : Nat) (bs : List UInt8) (hn : bs.length ≤ n) :
    blit page o (fun k => bs.getD k (view page o k)) n =
      blit page o (fun k => bs.getD k 0) bs.length := by
  funext p
  unfold blit
  by_cases hp : o ≤ p ∧ p < o + bs.length
  · rw [if_pos ⟨hp.1, by omega⟩, if_pos hp]
    dsimp only
    rw [List.getD_eq_getElem _ _ (by omega), List.getD_eq_getElem _ _ (by omega)]
  · rw [if_neg hp]
    split
    · dsimp only
      rw [List.getD_eq_default _ _ (by omega)]
      show page (o + (p - o)) = page p
      rw [Nat.add_sub_cancel' (by omega)]
    · rfl

/-- A creation whose `read()` went well. -/
theorem orderly_loads (h : m.Orderly ram₀) (hclean : ∀ f, clean (ram₀ f)) (fs : Fs)
    (hin : r.process.InPage) (hp : m.cr3.Known) (hr : ¬ Refused r.process m.kernel)
    {bs : List UInt8} (hbs : bs.length ≤ r.bufferSize.toNat) {out : Mem}
    (hout : out = fun k => bs.getD k (view (m.ram (Machine.entry r.buf
      { m with kernel := loading r.process m.kernel }).lowerAddress) (pageOffset r.buf) k)) :
    ∃ i d, Loads clean r bs ⟨m, fs⟩ ⟨m.create r.process 0 out, fs⟩ i d := by
  obtain ⟨d, g, hopen, hnew, hcreate⟩ := h.create_eq hin hr
  have hload := loading_space hopen hnew m.ram
  rw [show (Machine.entry r.buf
    { m with kernel := loading r.process m.kernel }).lowerAddress = _ from hload] at hout
  have hm' := hcreate 0 out
  rcases processCreate_cases r.process 0 m.kernel with ⟨hc, -⟩ | ⟨-, hc, -⟩ | ⟨-, -, he⟩
  · exact absurd hc hr
  · exact absurd rfl hc
  rw [he] at hm'
  dsimp only at hm'
  have hnew' : NewSpace r.process.buf m.kernel.paging (created r.process m.kernel).paging d g := by
    rw [created_paging, loading_paging]
    exact (hnew.use _).use _
  have hI := h.isolated.created r.process 0
  rw [he] at hI
  obtain ⟨-, ho⟩ := h.opened hnew' hI hm'
  obtain ⟨i, hi⟩ := h.coherent.exists_slot hr
  obtain ⟨pcb, hl, -, hready, hdir⟩ := created_pcb r.process hi
  have hpages : (m.create r.process 0 out).pagesOf (.list d) (pageIndex r.buf) =
      some (blit (m.ram (BitVec.ofNat 10 g)) (pageOffset r.buf) out r.bufferSize.toNat) := by
    rw [hm']
    exact (seen_of_some (frames_of_entry hnew'.program)).trans
      (congrArg some (Function.update_self ..))
  have hkernel : (m.create r.process 0 out).kernel = created r.process m.kernel := by
    rw [hm']
  have hpcb : (created r.process m.kernel).processList i = pcb := by
    rw [hl, Function.update_self]
  refine ⟨i, d, (firstFree_eq_some hi).2.1, ?_, ?_, ?_, ?_, hnew.unused, ?_, ?_, ?_, ?_⟩
  · show (m.create r.process 0 out).kernel.manager.isProcessActive i = true
    rw [hkernel, created_manager, inactiveIndex_eq hi]
    exact Function.update_self ..
  · show (m.create r.process 0 out).kernel.space i = .list d
    rw [hkernel]
    unfold KernelState.space
    rw [hpcb, hdir, hopen]
  · show ((m.create r.process 0 out).kernel.processList i).context.eip = r.buf
    rw [hkernel]
    exact created_entry r.process hi
  · show ((m.create r.process 0 out).kernel.processList i).processState = .ready
    rw [hkernel, hpcb, hready]
  · refine ⟨m.ram (BitVec.ofNat 10 g), ?_, ?_⟩
    · rw [h.untouched g hnew.free]
      exact hclean _
    · refine hpages.trans (congrArg some ?_)
      rw [hout]
      exact blit_over _ _ _ _ hbs
  · intro j hj
    refine (ho.stack j hj).imp_right fun ⟨hjs, page, ⟨f, hf⟩, hs⟩ => ⟨hjs, page, ?_, hs⟩
    rw [hf]
    exact hclean f
  · intro p hpd
    funext j
    exact ho.others (p, j) hpd
  · show (m.create r.process 0 out).kernel.paging.cr3 = m.kernel.paging.cr3
    rw [hkernel]
    exact created_cr3 r.process hp

/-- A creation whose `read()` did not go well fails. -/
theorem create_fails {code : Int} (hr : ¬ Refused r.process m.kernel) (hcode : code ≠ 0) :
    (processCreateUserProcess r.process code m.kernel).1 = 4 := by
  rcases processCreate_cases r.process code m.kernel with ⟨hc, -⟩ | ⟨-, -, he⟩ | ⟨-, hc, -⟩
  · exact absurd hc hr
  · rw [he]
  · exact absurd hc hcode

end Create

/-! ## Answers -/

section Answers

variable {st : FileStore} {r : ProgramRequest} {buf : Mem} {res : Int × Mem} {bs : List UInt8}

/-- The store holds a program of that name, not too large for the buffer. -/
def Holds (st : FileStore) (r : ProgramRequest) (bs : List UInt8) : Prop :=
  st.dir r.parentInode.toNat ∧ ∃ size l,
    st.items r.parentInode.toNat (bytes r.name 0 r.nameLen.toNat) = .file size bs :: l ∧
    size ≤ r.bufferSize.toNat

theorem named_localRequest (st : FileStore) (r : ProgramRequest) (buf : Mem) :
    st.named (r.localRequest buf) =
      st.items r.parentInode.toNat (bytes r.name 0 r.nameLen.toNat) := by
  have hname : requestName (r.localRequest buf) = bytes r.name 0 r.nameLen.toNat :=
    bytes_congr fun p _ hp => if_pos (by rw [Nat.zero_add] at hp; exact hp)
  unfold FileStore.named
  rw [hname]
  rfl

theorem Holds.answer (h : Holds st r bs) (hans : st.Answers (r.localRequest buf) res) :
    res = (0, fun k => bs.getD k (buf k)) := by
  obtain ⟨hd, size, l, hn, hle⟩ := h
  rw [← named_localRequest st r buf] at hn
  cases hans with
  | notDir hnot => exact absurd hd hnot
  | absent _ hn' => cases hn.symm.trans hn'
  | directory _ hn' => cases hn.symm.trans hn'
  | tooLarge _ hn' hlt =>
    cases hn.symm.trans hn'
    exact absurd hle (not_le.mpr hlt)
  | found _ hn' =>
    cases hn.symm.trans hn'
    rfl

theorem answer_of_not_holds (h : ∀ bs, ¬ Holds st r bs)
    (hans : st.Answers (r.localRequest buf) res) : res.1 ≠ 0 := by
  cases hans with
  | found hd hn hle =>
    rw [named_localRequest] at hn
    exact absurd ⟨hd, _, _, hn, hle⟩ (h _)
  | _ => exact of_decide_eq_true rfl

/-- No program is longer than the buffer it fits. -/
theorem Holds.length_le (h : Holds st r bs) (hs : st.Sized) :
    bs.length ≤ r.bufferSize.toNat := by
  obtain ⟨-, size, l, hn, hle⟩ := h
  exact (hs _ _ size bs (by rw [hn]; exact List.mem_cons_self)).trans hle

end Answers

/-! ## Runs -/

/-- The machine is in order since the power came on, and so is the file system. -/
structure System.Ok (clean : Mem → Prop) (s : System) : Prop where
  machine : ∃ ram, (∀ f, clean (ram f)) ∧ s.machine.Orderly ram
  fs : Mounted s.fs
  sized : (storeOf s.fs).Sized

section Runs

variable {clean : Mem → Prop} {s s' : System} {a : SysAct} {acts : List SysAct}
  {ram₀ : BitVec 10 → Mem} {fs₀ : Fs} {m₀ : Surroundings}

/-- Each step keeps this, and its file events are steps of the store. -/
theorem System.Ok.step (h : s.Ok clean) (hs : s.Step clean a s') :
    s'.Ok clean ∧ Execution FileStore.Step (storeOf s.fs) a.fileEvents (storeOf s'.fs) := by
  obtain ⟨⟨ram, hclean, hord⟩, hm, hsized⟩ := h
  cases hs with
  | machine _ hstep => exact ⟨⟨⟨ram, hclean, hord.step hstep⟩, hm, hsized⟩, .nil _⟩
  | exec r stack hp hin =>
    exact ⟨⟨⟨ram, hclean, hord.step (.create _ _ _ hp hin)⟩, hm, hsized⟩, .nil _⟩
  | file _ hstep =>
    obtain ⟨hm', hst⟩ := hm.service hstep
    exact ⟨⟨⟨ram, hclean, hord⟩, hm', hst.sized hsized⟩, .single hst⟩
  | powerOn m ram' memory hclean' hdisk =>
    obtain ⟨hm', hst⟩ := hm.service (.reboot memory hdisk)
    exact ⟨⟨⟨ram', hclean', orderly_boot m ram'⟩, hm', hst.sized hsized⟩, .single hst⟩

theorem System.ok_run (hfs : LossOs.Ext2.IsFresh fs₀) (hclean : ∀ f, clean (ram₀ f))
    (hrun : Execution (System.Step clean) ⟨bootMachine m₀ ram₀, fs₀⟩ acts s) :
    s.Ok clean ∧ Execution FileStore.Step rootStore (acts.flatMap SysAct.fileEvents)
      (storeOf s.fs) := by
  have hroot := hfs.formatted.store
  have h₀ : System.Ok clean ⟨bootMachine m₀ ram₀, fs₀⟩ :=
    ⟨⟨ram₀, hclean, orderly_boot m₀ ram₀⟩, hfs.mounted, by rw [hroot]; exact
      LossOs.Ext2.rootStore_sized⟩
  obtain ⟨st, hst, hok, rfl⟩ := hrun.simulate FileStore.Step SysAct.fileEvents
    (fun s st => s.Ok clean ∧ storeOf s.fs = st)
    (fun s st a s' hR hstep => by
      obtain ⟨hok, rfl⟩ := hR
      obtain ⟨hok', hst⟩ := hok.step hstep
      exact ⟨_, hst, hok', rfl⟩) ⟨h₀, hroot⟩
  exact ⟨hok, hst⟩

/-- A program that the file system holds is started with its bytes in a memory of its own, and one
    that it does not hold is not started. -/
theorem exec_loads (hfs : LossOs.Ext2.IsFresh fs₀) (hclean : ∀ f, clean (ram₀ f))
    (hrun : Execution (System.Step clean) ⟨bootMachine m₀ ram₀, fs₀⟩ acts s) :
    ∃ st, Execution FileStore.Step rootStore (acts.flatMap SysAct.fileEvents) st ∧
      ∀ (r : ProgramRequest) (stack : Mem), s.machine.cr3.Known → r.process.InPage →
        r.parentInode.toNat ≤ 896 → ¬ Refused r.process s.machine.kernel →
        (∀ bs, Holds st r bs → (s.exec r stack).1 = 0 ∧
          ∃ i d, Loads clean r bs s (s.exec r stack).2 i d) ∧
        ((∀ bs, ¬ Holds st r bs) → (s.exec r stack).1 = 4) := by
  obtain ⟨⟨⟨ram, hram, hord⟩, hm, hsized⟩, hst⟩ := System.ok_run hfs hclean hrun
  refine ⟨storeOf s.fs, hst, fun r stack hp hin h896 hr => ?_⟩
  have hans := (hm.tree.withStack stack).answers (show (r.localRequest (view
    (s.machine.ram (Machine.entry r.buf
      { s.machine with kernel := loading r.process s.machine.kernel }).lowerAddress)
    (pageOffset r.buf))).parentInode.toNat ≤ 896 from h896)
  rw [LossOs.Ext2.storeOf_withStack] at hans
  unfold System.exec
  dsimp only
  generalize hres : LossOs.Ext2.read _ _ = res at hans ⊢
  refine ⟨fun bs hb => ?_, fun hn => create_fails hr (answer_of_not_holds hn hans)⟩
  have he := hb.answer hans
  subst he
  refine ⟨?_, orderly_loads hord hram s.fs hin hp hr (hb.length_le hsized) rfl⟩
  rcases processCreate_cases r.process 0 s.machine.kernel with ⟨hc, -⟩ | ⟨-, hc, -⟩ | ⟨-, -, he⟩
  · exact absurd hc hr
  · exact absurd rfl hc
  · rw [he]

end Runs

open LossOs.Ext2 (threeBytes freshFs isFresh_freshFs)

/-- The power is on, with nothing in memory. -/
def poweredOn (fs : Fs) : System := ⟨bootMachine emptyMemory fun _ _ => 0, fs⟩

/-- After a file has been written. -/
def writtenFs (fs : Fs) : Fs := (LossOs.Ext2.write threeBytes (fs.withStack fun _ => 0)).2

/-- After the power has been off and on again. -/
def restartedSystem (fs : Fs) : System :=
  poweredOn (LossOs.Ext2.initializeFilesystemExt2 (writtenFs fs).restarted)

/-- A program is written, the power goes off and on, and the program may be started. -/
theorem exec_loads_fresh : ∃ st, Execution FileStore.Step rootStore
    ([.file (.call (.write threeBytes)
      (LossOs.Ext2.write threeBytes (freshFs.withStack fun _ => 0)).1), .powerOn].flatMap
        SysAct.fileEvents) st ∧
    ∀ (r : ProgramRequest) (stack : Mem), (restartedSystem freshFs).machine.cr3.Known →
      r.process.InPage → r.parentInode.toNat ≤ 896 →
      ¬ Refused r.process (restartedSystem freshFs).machine.kernel →
      (∀ bs, Holds st r bs → ((restartedSystem freshFs).exec r stack).1 = 0 ∧
        ∃ i d, Loads (fun page => page = fun _ => 0) r bs (restartedSystem freshFs)
          ((restartedSystem freshFs).exec r stack).2 i d) ∧
      ((∀ bs, ¬ Holds st r bs) → ((restartedSystem freshFs).exec r stack).1 = 4) := by
  have h := isFresh_freshFs
  generalize freshFs = fs at h
  obtain ⟨hok, hfl, -⟩ := (h.formatted.withStack fun _ => 0).writes_three
  have hw : System.Step (fun page => page = fun _ => 0) (poweredOn fs) (.file (.call _ _))
      (poweredOn (writtenFs fs)) := .file nofun (.call _ _ hok hfl)
  have hoff : System.Step (fun page => page = fun _ => 0) (poweredOn (writtenFs fs)) .powerOn
      (restartedSystem fs) := .powerOn emptyMemory (fun _ _ => 0) _ (fun _ => rfl) rfl
  exact exec_loads h (fun _ => rfl) ((Execution.single hw).snoc hoff)

end LossOs.Os
