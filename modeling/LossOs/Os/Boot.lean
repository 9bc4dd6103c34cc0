/-
  From the image to the shell.

  The image of the disk is built on another computer: each run of the inserter loads it, mounts the
  file system in it with the kernel's own driver and writes one file. `kernel_setup` mounts what
  came out, reads `shell` from directory 2, starts it as a process and switches to it.
  `shell_boots`: a shell that was inserted whole is what runs then, whatever was inserted before
  and after it.
-/
import LossOs.Os.Exec
import LossOs.Kernel.TimeSharing
import LossOs.Kernel.RoundRobin
import LossOs.Ext2.Nested

namespace LossOs.Os

open LossOs.Lib LossOs.Kernel
open LossOs.Ext2 (Fs Disk FileStore EXT2DriverRequest requestName Mounted storeOf Careful Flushes
  Blank blankFs initializeFilesystemExt2)

/-! ## The image -/

/-- The arguments of the inserter, with what is in the file. -/
structure Insertion where
  name : List UInt8
  parent : UInt32
  file : List UInt8

/-- `isspace`. -/
def isspace (c : UInt8) : Bool := c == 32 || (9 ≤ c && c ≤ 13)

/-- `sscanf(name, "%s", name)`: the first word and a NUL are copied to the beginning. -/
def scanName (name : List UInt8) : List UInt8 :=
  let word := (name.dropWhile isspace).takeWhile fun c => !isspace c
  if word.isEmpty then name else word ++ 0 :: name.drop (word.length + 1)

/-- Its request. What is called `bin...` is a directory; behind the file lies `heap`. The length of
    the name is taken before the scan. -/
def Insertion.request (i : Insertion) (heap : Mem) : EXT2DriverRequest :=
  let isDirectory := decide (LossOs.Ext2.memcmp (fun k => i.name.getD k 0)
    (fun k => [98, 105, 110].getD k 0) 3 = 0)
  { buf := if isDirectory then fun _ => 0 else fun k => i.file.getD k (heap k)
    name := fun k => (scanName i.name).getD k 0
    nameLen := UInt8.ofNat i.name.length
    parentInode := i.parent
    bufferSize := if isDirectory then 0 else UInt32.ofNat i.file.length
    isDirectory := isDirectory }

/-- The driver with `memory`, when it has been initialized on a disk. -/
def mount (memory : Fs) (image : Disk) : Fs :=
  initializeFilesystemExt2 { memory with disk := image }

/-- `main` of the inserter: what `write()` returns, and the image that is saved. -/
def insert (i : Insertion) (heap stack : Mem) (image : Disk) : Int × Disk :=
  let res := LossOs.Ext2.write (i.request heap) ((mount blankFs image).withStack stack)
  (res.1, res.2.disk)

/-- Where in the store the file goes. The length of the name is a byte. -/
def Insertion.place (i : Insertion) : Nat × List UInt8 :=
  (i.parent.toNat, (scanName i.name).take (i.name.length % 256))

/-- A careful run of the inserter. -/
inductive Inserts : Disk → Insertion → Disk → Prop
  | run {image : Disk} {i : Insertion} (heap stack : Mem) :
      Careful (.write (i.request heap)) ((mount blankFs image).withStack stack) →
      Flushes (.write (i.request heap)) ((mount blankFs image).withStack stack) →
      Inserts image i (insert i heap stack image).2

/-- One that finds room for the whole file. -/
structure InsertsWhole (i : Insertion) (heap stack : Mem) (image : Disk) : Prop where
  careful : Careful (.write (i.request heap)) ((mount blankFs image).withStack stack)
  flushes : Flushes (.write (i.request heap)) ((mount blankFs image).withStack stack)
  success : (insert i heap stack image).1 = 0
  fits : ∀ n, LossOs.Ext2.firstFreeInode (mount blankFs image).disk = some n →
    LossOs.Ext2.FileFits (i.request heap) ((mount blankFs image).withStack stack) n

/-! ## The boot -/

/-- `shell`. -/
def shellName : List UInt8 := [115, 104, 101, 108, 108]

/-- The request of `kernel_setup`. -/
def shellProgram : ProgramRequest where
  buf := 0
  name := fun k => shellName.getD k 0
  nameLen := 5
  parentInode := 2
  bufferSize := 0x100000
  isDirectory := false

/-- `kernel_setup`, from the file system on: the context it jumps to, and the system then. It reads
    the shell twice, first under the kernel's own directory. -/
def kernelSetup (m : Surroundings) (ram : BitVec 10 → Mem) (memory : Fs) (stack stack' : Mem)
    (image : Disk) : Option (Context × System) :=
  let fs := mount memory image
  let m := bootMachine m ram
  let f := (m.entry shellProgram.buf).lowerAddress
  let out := (LossOs.Ext2.read (shellProgram.localRequest (view (m.ram f)
    (pageOffset shellProgram.buf))) (fs.withStack stack)).2
  let page := blit (m.ram f) (pageOffset shellProgram.buf) out shellProgram.bufferSize.toNat
  let s := (System.exec shellProgram stack' ⟨{ m with ram := Function.update m.ram f page }, fs⟩).2
  (schedulerSwitchToNextProcess s.machine.kernel).map fun r =>
    (r.1, { s with machine := { s.machine with kernel := r.2 } })

/-- The shell is the only process, and it runs: its bytes lie from address 0 on, where it starts. -/
structure ShellRuns (ram : BitVec 10 → Mem) (file : List UInt8) (r : Context × System) : Prop where
  entry : r.1.eip = 0
  running : currentRunning r.2.machine.kernel = some 0
  alone : ∀ i, r.2.machine.kernel.manager.isProcessActive i = true ↔ i = 0
  memory : ∃ d f, r.2.machine.kernel.space 0 = .list d ∧ r.2.machine.cr3 = .list d ∧
    r.2.machine.pagesOf (.list d) 0 =
      some (blit (ram f) 0 (fun k => file.getD k 0) file.length)
  starts : ∃ ram', ∀ (pd ret : UInt32) (v : LossOs.Lib.X86.Cpu),
    v.seg .ds = gdtKernelDataSegmentSelector →
    ∃ c, resume r.1 pd ret v = some c ∧ Computer.Starts ram' ⟨r.2.machine, userRegs c⟩

/-! ## Insertions -/

section Insertions

variable {image image' : Disk} {i : Insertion} {heap stack : Mem} {fs : Fs}

theorem length_scanName (name : List UInt8) : name.length ≤ (scanName name).length := by
  unfold scanName
  dsimp only
  split_ifs
  · exact le_rfl
  · rw [List.length_append, List.length_cons, List.length_drop]
    omega

theorem bytes_getD (l : List UInt8) {n : Nat} (h : n ≤ l.length) :
    bytes (fun k => l.getD k 0) 0 n = l.take n := by
  refine List.ext_getElem ?_ fun k h₁ h₂ => ?_
  · rw [length_bytes, List.length_take, min_eq_left h]
  · have hk : k < l.length := by
      rw [List.length_take] at h₂
      omega
    simp only [bytes, List.getElem_map, List.getElem_range, List.getElem_take, Nat.zero_add,
      List.getD_eq_getElem _ 0 hk]

theorem requestName_insertion (i : Insertion) (heap : Mem) :
    ((i.request heap).parentInode.toNat, requestName (i.request heap)) = i.place := by
  refine congrArg (Prod.mk _) ?_
  have hlen : (UInt8.ofNat i.name.length).toNat = i.name.length % 256 := UInt8.toNat_ofNat'
  show bytes (fun k => (scanName i.name).getD k 0) 0 (UInt8.ofNat i.name.length).toNat = _
  rw [hlen, bytes_getD _ ((Nat.mod_le ..).trans (length_scanName i.name))]

/-- Mounting changes nothing in what is stored. -/
theorem mounted_image (h : Mounted fs) (hd : fs.disk = image) (memory : Fs) :
    Mounted (mount memory image) ∧ (mount memory image).disk = image ∧
      storeOf (mount memory image) = storeOf fs := by
  have hram : ({ memory with disk := image } : Fs).disk = fs.disk := hd.symm
  obtain ⟨hm, hdisk, -⟩ := h.reboot hram
  exact ⟨hm, hdisk.trans hd, LossOs.Ext2.storeOf_disk hdisk⟩

/-- The image is that of a file system, or still empty. -/
theorem inserted (h : Mounted (mount blankFs image)) (hs : Inserts image i image') :
    ∃ fs code heap, Mounted fs ∧ fs.disk = image' ∧
      (storeOf (mount blankFs image)).Serves (.write (i.request heap)) code (storeOf fs) := by
  obtain ⟨heap, stack, hok, hfl⟩ := hs
  refine ⟨_, (insert i heap stack image).1, heap, (h.withStack stack).call hok hfl, rfl, ?_⟩
  have := (h.tree.withStack stack).serves hok
  rw [LossOs.Ext2.storeOf_withStack] at this
  exact this

theorem inserted_run {is : List Insertion} (h : Mounted (mount blankFs image))
    (hrun : Execution Inserts image is image') : Mounted (mount blankFs image') := by
  refine hrun.invariant (I := fun image => Mounted (mount blankFs image))
    (fun _ _ _ _ h hs => ?_) h
  obtain ⟨fs, -, -, hm, hd, -⟩ := inserted h hs
  exact (mounted_image hm hd blankFs).1

/-- A `write` takes away no directory. -/
theorem serves_write_dir {st st' : FileStore} {r : EXT2DriverRequest} {code : Int} {p : Nat}
    (h : st.Serves (.write r) code st') (hp : st.dir p) : st'.dir p := by
  cases h with
  | file => exact hp
  | dir n => exact Or.inl hp
  | _ => exact hp

/-- The image has a file of that name in a directory. -/
def HasFile (p : Nat) (n : List UInt8) (file : List UInt8) (image : Disk) : Prop :=
  ∃ fs, Mounted fs ∧ fs.disk = image ∧ (storeOf fs).dir p ∧
    ∃ l, (storeOf fs).items p n = .file file.length file :: l

theorem InsertsWhole.hasFile (h : InsertsWhole i heap stack image)
    (hm : Mounted (mount blankFs image)) (hfile : LossOs.Ext2.isDirRequest (i.request heap) = false)
    (hbuf : bytes (i.request heap).buf 0 (i.request heap).bufferSize.toNat = i.file) :
    HasFile i.place.1 i.place.2 i.file (insert i heap stack image).2 := by
  have ht := hm.tree.withStack stack
  obtain ⟨k, -, hstore, hfull⟩ := ht.write_file h.careful hfile h.success
  rcases ht.sound.write_careful h.careful with ⟨hne, -⟩ | ⟨-, hp, n, ni, L, hnew, -⟩
  · exact absurd h.success hne
  obtain rfl := hfull n hnew.first (h.fits n hnew.first)
  have hplace := requestName_insertion i heap
  have hlen : (i.request heap).bufferSize.toNat = i.file.length := by
    rw [← hbuf, length_bytes]
  refine ⟨_, (hm.withStack stack).call h.careful h.flushes, rfl, ?_, ?_⟩
  · have hp' := (hnew.isDirectory_iff (hnew.ne_of_used hp.used)).mpr hp
    rw [← hplace]
    exact hp'
  · refine ⟨(storeOf ((mount blankFs image).withStack stack)).items i.place.1 i.place.2, ?_⟩
    rw [← hplace]
    refine (congrArg (fun s => Store.items s _ _) hstore).trans ?_
    refine Store.push_items.trans ((if_pos ⟨rfl, rfl⟩).trans ?_)
    rw [hbuf, hlen]

/-- It is still there after insertions elsewhere. -/
theorem HasFile.inserts {p : Nat} {n file : List UInt8} (h : HasFile p n file image)
    (hs : Inserts image i image') (hne : i.place ≠ (p, n)) : HasFile p n file image' := by
  obtain ⟨fs, hm, hd, hdir, l, hl⟩ := h
  obtain ⟨hm₁, -, hst⟩ := mounted_image hm hd blankFs
  obtain ⟨fs', code, heap, hm', hd', hserves⟩ := inserted hm₁ hs
  rw [hst] at hserves
  have hdir' := serves_write_dir hserves hdir
  refine ⟨fs', hm', hd', hdir', l, ?_⟩
  rw [(FileStore.Step.call hserves).items_kept (fun c code hc => ?_) hdir hdir', hl]
  cases hc
  exact (requestName_insertion i heap) ▸ hne

theorem HasFile.run {p : Nat} {n file : List UInt8} {is : List Insertion}
    (h : HasFile p n file image) (hrun : Execution Inserts image is image')
    (hne : ∀ i ∈ is, i.place ≠ (p, n)) : HasFile p n file image' :=
  hrun.invariant (I := HasFile p n file) (fun _ i _ hi h hs => h.inserts hs (hne i hi)) h

/-- The request for a file that is called `shell`. -/
theorem shell_request (heap : Mem) (hname : i.name = shellName) (hlt : i.file.length < 4294967296) :
    LossOs.Ext2.isDirRequest (i.request heap) = false ∧
      bytes (i.request heap).buf 0 (i.request heap).bufferSize.toNat = i.file := by
  obtain ⟨name, parent, file⟩ := i
  subst hname
  have hsize : (UInt32.ofNat file.length).toNat = file.length :=
    UInt32.toNat_ofNat_of_lt' hlt
  refine ⟨Bool.and_false _, ?_⟩
  show bytes (fun k => file.getD k (heap k)) 0 (UInt32.ofNat file.length).toNat = file
  rw [hsize]
  refine List.ext_getElem (by rw [length_bytes]) fun k h₁ h₂ => ?_
  simp only [bytes, List.getElem_map, List.getElem_range, Nat.zero_add,
    List.getD_eq_getElem _ _ h₂]

end Insertions

/-! ## Booting -/

section Boot

variable {m : Surroundings} {ram : BitVec 10 → Mem} {memory : Fs} {image : Disk}
  {file : List UInt8}

theorem boot_frame (m : Surroundings) (ram : BitVec 10 → Mem) :
    ((bootMachine m ram).entry shellProgram.buf).lowerAddress = 1 := by
  unfold Machine.entry Machine.cr3 bootMachine
  dsimp only
  rw [boot_paging]
  rfl

theorem bootMachine_ram (m : Surroundings) (ram : BitVec 10 → Mem) (f : BitVec 10) (page : Mem) :
    { bootMachine m ram with ram := Function.update (bootMachine m ram).ram f page } =
      bootMachine m (Function.update ram f page) := rfl

/-- What the kernel reads under its own directory disturbs no free frame. -/
theorem orderly_read (m : Surroundings) (ram : BitVec 10 → Mem) (page : Mem) :
    (bootMachine m (Function.update ram 1 page)).Orderly ram := by
  have h := orderly_boot m (Function.update ram 1 page)
  refine { h with untouched := fun f hf => (h.untouched f hf).trans (Function.update_of_ne ?_ ..) }
  rintro hc
  have hf1 : f = 1 := by
    have := congrArg BitVec.toNat hc
    rw [BitVec.toNat_ofNat] at this
    have hlt := f.isLt
    refine Fin.ext ?_
    show f.val = 1
    have h1 : (1 : BitVec 10).toNat = 1 := rfl
    omega
  rw [hf1] at hf
  rw [show (bootMachine m (Function.update ram 1 page)).kernel.paging = (linkedPaging m).give 1
    .kernel 0 from boot_paging m] at hf
  cases hf

theorem shell_accepted (m : Surroundings) : ¬ Refused shellProgram.process (boot m) := by
  rintro (h | h | h | h)
  · exact absurd h (show ¬ (16 : UInt32) ≤ 0 by decide)
  · exact absurd h (by decide)
  · have h30 : (boot m).paging.freePageFrameCount = 30 := by
      rw [boot_paging]
      exact show (31 : UInt32) - 1 = 30 by decide
    unfold pagingAllocateCheck at h
    rw [h30] at h
    exact absurd h (by decide)
  · exact absurd h (by decide)

theorem shell_inPage : shellProgram.process.InPage :=
  show pageOffset 0 + 1048576 ≤ 4194304 by decide

/-- The new process is in slot 0 of the empty table. -/
theorem boot_slot (m : Surroundings) : firstFree 0 (boot m).manager.isProcessActive = some 0 :=
  show firstFree 0 (fun _ : Fin 16 => false) = some 0 by decide

/-- A new process has the selector of user data in its data segment registers. -/
theorem created_loads {k : KernelState} {i : Fin 16} (request : ProcessRequest)
    (h : firstFree 0 k.manager.isProcessActive = some i) :
    ((created request k).processList i).context.cpu.Loadable := by
  have hsel : ((created request k).processList i).context.cpu.selector = fun _ => 0x23 := by
    unfold created startProcess
    rw [reserveProcess_index request h, toNat_slot, setPcb_processList, Function.update_self]
    funext s
    cases s <;> rfl
  have huser : UserSelector 0x23 := Or.inr (by decide)
  exact ⟨by rw [hsel]; exact huser.descriptor.1, fun s => by rw [hsel]; exact huser.loads⟩

/-- The first process is created alone, and the scheduler enters it. -/
theorem first_enters {request : ProcessRequest} (ram : BitVec 10 → Mem) (out : Mem)
    (hr : ¬ Refused request (boot m)) :
    ((bootMachine m ram).create request 0 out).kernel = created request (boot m) ∧
      (∀ i, (created request (boot m)).manager.isProcessActive i = true ↔ i = 0) ∧
      ∃ r, schedulerSwitchToNextProcess (created request (boot m)) = some r ∧
        Enters (created request (boot m)) r 0 := by
  have hkernel : ((bootMachine m ram).create request 0 out).kernel = created request (boot m) := by
    rw [create_kernel]
    rcases processCreate_cases request 0 (boot m) with ⟨hc, -⟩ | ⟨-, hc, -⟩ | ⟨-, -, he⟩
    · exact absurd hc hr
    · exact absurd rfl hc
    · exact congrArg Prod.snd he
  have halone : ∀ i, (created request (boot m)).manager.isProcessActive i = true ↔ i = 0 := by
    intro i
    rw [created_manager, inactiveIndex_eq (boot_slot m)]
    show Function.update (fun _ => false) (0 : Fin 16) true i = true ↔ i = 0
    by_cases hi : i = 0
    · rw [hi, Function.update_self]
      exact iff_of_true rfl rfl
    · rw [Function.update_of_ne hi]
      exact iff_of_false Bool.false_ne_true hi
  have heq := create_kernel request 0 out (bootMachine m ram)
  rw [hkernel, show (bootMachine m ram).kernel = boot m from rfl] at heq
  have hone := (oneRunning_boot m).created (coherent_boot m) request 0
  have hpid := (pidOk_boot m).created (coherent_boot m) request 0
  rw [← heq] at hone hpid
  obtain ⟨next, hn⟩ := nextActive_isSome hpid.1 ⟨0, (halone 0).mpr rfl⟩
  have hsome : (schedulerSwitchToNextProcess (created request (boot m))).isSome = true := by
    unfold schedulerSwitchToNextProcess
    rw [hn]
    rfl
  obtain ⟨r, hr'⟩ := Option.isSome_iff_exists.mp hsome
  obtain ⟨n, he⟩ := switch_enters hone hpid hr'
  obtain rfl := (halone n).mp he.active
  exact ⟨hkernel, halone, r, hr', he⟩

/-- The process that is entered has the memory it was given. -/
theorem entered_shell {clean : Mem → Prop} {r : ProgramRequest} {bs : List UInt8} {out : Mem}
    {fs : Fs} {i : Fin 16} {d : Fin 32} (hr : ¬ Refused r.process (boot m))
    (hload : Loads clean r bs ⟨bootMachine m ram, fs⟩
      ⟨(bootMachine m ram).create r.process 0 out, fs⟩ i d) :
    ∃ res, schedulerSwitchToNextProcess ((bootMachine m ram).create r.process 0 out).kernel =
        some res ∧ res.1.eip = r.buf ∧ res.1.cpu.Loadable ∧ currentRunning res.2 = some 0 ∧
      (∀ i, res.2.manager.isProcessActive i = true ↔ i = 0) ∧ res.2.space 0 = .list d ∧
      res.2.paging.cr3 = .list d ∧ ∃ page, clean page ∧
        Machine.pagesOf { (bootMachine m ram).create r.process 0 out with kernel := res.2 }
          (.list d) (pageIndex r.buf) =
            some (blit page (pageOffset r.buf) (fun k => bs.getD k 0) bs.length) := by
  obtain ⟨hkernel, halone, res, hres, he⟩ := first_enters ram out hr
  have hactive := hload.active
  have hspace := hload.space
  have hentry := hload.entry
  obtain ⟨page, hclean, hpage⟩ := hload.program
  dsimp only at hactive hspace hentry hpage
  rw [hkernel] at hactive hspace hentry ⊢
  obtain rfl := (halone i).mp hactive
  refine ⟨res, hres, ?_, ?_, he.running, fun i => ?_, (he.space 0).trans hspace, ?_, page, hclean,
    ?_⟩
  · rw [he.ctx]
    exact hentry
  · rw [he.ctx]
    exact created_loads r.process (boot_slot m)
  · rw [he.flags]
    exact halone i
  · rw [he.paging, hspace]
    rfl
  · rw [← hpage]
    unfold Machine.pagesOf spacesOf
    dsimp only
    have hframes : res.2.paging.frames = (created r.process (boot m)).paging.frames := by
      unfold Paging.frames
      rw [he.paging, userEntry_use]
    rw [hframes, hkernel]

/-- Process creation, when `read()` returns 0 and leaves `out` of what lies in its buffer. -/
theorem exec_eq {r : ProgramRequest} {stack : Mem} {m : Machine} {fs : Fs} {out : Mem → Mem}
    (hread : ∀ buf, LossOs.Ext2.read (r.localRequest buf) (fs.withStack stack) = (0, out buf)) :
    (System.exec r stack ⟨m, fs⟩).2 = ⟨m.create r.process 0 (out (view (m.ram (Machine.entry r.buf
      { m with kernel := loading r.process m.kernel }).lowerAddress) (pageOffset r.buf))), fs⟩ := by
  unfold System.exec
  dsimp only
  rw [hread]

/-- A shell that was inserted whole runs after the boot, whatever else was inserted. -/
theorem shell_boots {image₀ image' : Disk} {before after : List Insertion} {shell : Insertion}
    {heap stack : Mem} (hblank : Blank { blankFs with disk := image₀ })
    (hbefore : Execution Inserts image₀ before image) (hname : shell.name = shellName)
    (hparent : shell.parent = 2) (hsize : shell.file.length ≤ 1048576)
    (hshell : InsertsWhole shell heap stack image)
    (hafter : Execution Inserts (insert shell heap stack image).2 after image')
    (hother : ∀ i ∈ after, i.place ≠ (2, shellName)) (m : Surroundings)
    (ram : BitVec 10 → Mem) (memory : Fs) (stack₁ stack₂ : Mem) :
    ∃ r, kernelSetup m ram memory stack₁ stack₂ image' = some r ∧
      ShellRuns ram shell.file r := by
  have hm : Mounted (mount blankFs image) :=
    inserted_run (LossOs.Ext2.IsFresh.mounted ⟨_, hblank, rfl⟩) hbefore
  obtain ⟨hreg, hbuf⟩ := shell_request heap hname (by omega)
  have hplace : shell.place = (2, shellName) := by
    unfold Insertion.place
    rw [hname, hparent]
    rfl
  have hfile : HasFile 2 shellName shell.file image' := by
    have h := hshell.hasFile hm hreg hbuf
    rw [hplace] at h
    exact h.run hafter hother
  obtain ⟨fs, hmfs, hd, hdir, l, hl⟩ := hfile
  obtain ⟨hmount, -, hst⟩ := mounted_image hmfs hd memory
  have hread : ∀ stack buf, LossOs.Ext2.read (shellProgram.localRequest buf)
      ((mount memory image').withStack stack) =
        (0, fun k => shell.file.getD k (buf k)) := by
    intro stack buf
    have h896 : (shellProgram.localRequest buf).parentInode.toNat ≤ 896 :=
      show (2 : UInt32).toNat ≤ 896 by decide
    have hans := (hmount.tree.withStack stack).answers h896
    rw [LossOs.Ext2.storeOf_withStack, hst] at hans
    exact Holds.answer (r := shellProgram) ⟨hdir, _, l, hl, hsize⟩ hans
  have hr := shell_accepted m
  have hclean : ∀ f, AtBoot ram (ram f) := fun f => ⟨f, rfl⟩
  unfold kernelSetup
  dsimp only
  rw [boot_frame, hread, bootMachine_ram, exec_eq (hread stack₂)]
  generalize blit _ _ _ _ = page
  obtain ⟨i, d, hload⟩ := orderly_loads (orderly_read m ram page) hclean (mount memory image')
    shell_inPage (Or.inl rfl) hr hsize rfl
  obtain ⟨res, hres, hentry, hloads, hrun, halone, hspace, hcr3, _, ⟨f, rfl⟩, hpage⟩ :=
    entered_shell hr hload
  dsimp only
  rw [hres]
  refine ⟨_, rfl, hentry, hrun, halone, ⟨d, f, hspace, hcr3, hpage⟩, Function.update ram 1 page,
    fun pd ret v hv => ?_⟩
  obtain ⟨c, hc, -⟩ := resume_loads hloads pd ret hv
  exact ⟨c, hc, .first _ shell_inPage hr hres ⟨pd, ret, v, c, hv, hc, rfl⟩⟩

end Boot

/-! ## A small image -/

section Small

open LossOs.Ext2 (IsDirectory OneBlock Rec firstFreeInode freeFrom inodeToBgd needed Nested
  dotRecords isDirRequest isFresh_freshFs freshFs scanParent)

variable {i : Insertion} {heap stack : Mem} {image : Disk} {b n : Nat} {xs ys : List Rec} {r : Rec}

/-- A file whose entry goes behind record `r` of the only block of its directory. -/
theorem insertsWhole_behind (hm : Mounted (mount blankFs image))
    (hd : (mount blankFs image).disk = image)
    (hp : IsDirectory image (i.request heap).parentInode.toNat)
    (hb : OneBlock image (i.request heap).parentInode.toNat b (xs ++ r :: ys))
    (hx : ∀ q ∈ xs, q.named (i.request heap) = false ∧ q.roomy (i.request heap) = false)
    (hr : r.named (i.request heap) = false ∧ r.roomy (i.request heap) = true)
    (hfree : firstFreeInode image = some n) (hreg : isDirRequest (i.request heap) = false)
    (hroom : needed (i.request heap) ≤ (freeFrom image (inodeToBgd n)).card) :
    InsertsWhole i heap stack image := by
  have ht := hm.tree.withStack stack
  rw [← hd] at hp hb hfree hroom
  obtain ⟨⟨hok, -⟩, h0, -⟩ := ht.write_behind (i.request heap) xs hp hb hx hr hfree hroom
  obtain ⟨hlive, hfits⟩ := LossOs.Ext2.roomy_iff.mp hr.2
  have hs : LossOs.Ext2.Stop (i.request heap) (mount blankFs image).disk
      (i.request heap).parentInode.toNat b r [] [] xs ys :=
    ⟨hb.blocks, hb.records, hlive, hfits, hr.1, by simp [LossOs.Ext2.dirRecords], hx⟩
  have hscan : scanParent (i.request heap) ((mount blankFs image).withStack stack) ≠ none :=
    fun hc => Option.some_ne_none _ (hs.firstHit.symm.trans
      ((LossOs.Ext2.scanParent_none_iff ht.consistent hp).mp hc))
  obtain ⟨q, hq⟩ := Option.ne_none_iff_exists'.mp hscan
  refine ⟨hok, ⟨hp.isInode, fun request' hc _ hn => ?_⟩, h0, fun n' hn' => ⟨?_, fun hn =>
    absurd hn hscan⟩⟩
  · cases hc
    exact absurd hn hscan
  · obtain rfl := Option.some.inj (hfree.symm.trans hn')
    unfold LossOs.Ext2.blocksLeft
    rw [LossOs.Ext2.parentBlock_of_scan hq,
      Finset.filter_true_of_mem fun x _ => (Option.some_ne_none x).symm]
    unfold needed at hroom
    rwa [hreg] at hroom

/-- What the makefile inserts first: the directory, and the shell. -/
def binInsertion : Insertion := ⟨[98, 105, 110], 1, []⟩
def smallShell : Insertion := ⟨shellName, 2, [7, 8, 9]⟩

/-- The disk with the directory. -/
def binImage : Disk := (insert binInsertion (fun _ => 0) (fun _ => 0) blankFs.disk).2

/-- The request of the first insertion. -/
def binRequest : EXT2DriverRequest := binInsertion.request fun _ => 0

theorem bin_inserted {fs : Fs} (hf : LossOs.Ext2.Formatted fs) (hm : Mounted fs) :
    Careful (.write binRequest) fs ∧ Flushes (.write binRequest) fs ∧
      Mounted (LossOs.Ext2.write binRequest fs).2 ∧
      Nested (LossOs.Ext2.write binRequest fs).2 [[98, 105, 110]] 2 1 [2, 1] 233 := by
  have hok : Careful (.write binRequest) fs := hf.careful rfl (by decide) (by decide)
  have hfl : Flushes (.write binRequest) fs := hf.flushes rfl
  exact ⟨hok, hfl, hm.call hok hfl, hf.nested.write binRequest 2 rfl rfl (by decide) (by decide)
    (by decide) (by decide) (LossOs.Ext2.mem_of_lt (by decide)) (by decide) (by decide)⟩

theorem insert_disk (i : Insertion) (heap stack : Mem) (image : Disk) :
    (insert i heap stack image).2 = (LossOs.Ext2.write (i.request heap)
      ((mount blankFs image).withStack stack)).2.disk := rfl

theorem mount_blank : mount blankFs blankFs.disk = freshFs := rfl

/-- The disk is that of a file system with one empty directory in the root. -/
theorem binImage_nested : Inserts blankFs.disk binInsertion binImage ∧ ∃ fs, Mounted fs ∧
    fs.disk = binImage ∧ Nested fs [[98, 105, 110]] 2 1 [2, 1] 233 := by
  obtain ⟨hok, hfl, hm, hn⟩ := bin_inserted (isFresh_freshFs.formatted.withStack fun _ => 0)
    (isFresh_freshFs.mounted.withStack fun _ => 0)
  refine ⟨.run (fun _ => 0) (fun _ => 0) (by rw [mount_blank]; exact hok)
    (by rw [mount_blank]; exact hfl), _, hm, ?_, hn⟩
  unfold binImage
  rw [insert_disk, mount_blank, binRequest]

theorem insertsWhole_small : InsertsWhole smallShell (fun _ => 0) (fun _ => 0) binImage := by
  obtain ⟨-, fs, hm, hd, hn⟩ := binImage_nested
  obtain ⟨b, hb⟩ := hn.block
  obtain ⟨hmount, hdisk, -⟩ := mounted_image hm hd blankFs
  have hinodes := hn.inodes
  have hdir := hn.dir
  have hroom := hn.room
  rw [hd] at hb hinodes hdir hroom
  have hfree : firstFreeInode binImage = some 3 := by
    refine LossOs.Ext2.firstFreeInode_eq (by decide) ?_ fun j hj hlt => ?_
    · rw [hinodes 3 (by decide)]
      rfl
    · have h0 := hj.1
      have h12 : j = 1 ∨ j = 2 := by omega
      rcases h12 with rfl | rfl <;> rw [hinodes _ hj] <;> rfl
  have hneeded : needed (smallShell.request fun _ => 0) ≤ 233 := by decide
  have hb' : OneBlock binImage 2 b ([⟨0, 2, 12, [46], 2⟩] ++ ⟨12, 1, 500, [46, 46], 2⟩ :: []) := hb
  exact insertsWhole_behind hmount hdisk hdir hb' (by decide) (by decide) hfree rfl
    (hneeded.trans hroom)

/-- An image with the directory and a shell of three bytes. -/
theorem shell_boots_small : ∃ r, kernelSetup emptyMemory (fun _ _ => 0) blankFs (fun _ => 0)
    (fun _ => 0) (insert smallShell (fun _ => 0) (fun _ => 0) binImage).2 = some r ∧
      ShellRuns (fun _ _ => 0) [7, 8, 9] r := by
  have hname : smallShell.name = shellName := rfl
  have hsize : smallShell.file.length ≤ 1048576 := show 3 ≤ 1048576 by decide
  exact shell_boots LossOs.Ext2.blank_blankFs (.single binImage_nested.1) hname rfl hsize
    insertsWhole_small (.nil _) (fun _ hi => nomatch hi) emptyMemory (fun _ _ => 0) blankFs
    (fun _ => 0) (fun _ => 0)

end Small

end LossOs.Os
