/-
  What a command sees of a result, and `commands/mkdir.c`.

  A system call stores one byte through the pointer to a 32-bit variable. The three bytes above are
  what they were, so the variable is the result exactly if they continue its sign
  (`storeResult_eq_iff`). `mkdir` starts from 0 and never sees -1, and it takes every code
  but 1 for a success (`run_mkdir`): what it prints is right exactly if `write` has nothing
  to refuse but a name that exists (`results_seen_iff`).
-/
import LossOs.Ext2.Graft
import LossOs.Shell.Syscalls

namespace LossOs.Shell

open LossOs.Lib LossOs.Ext2

/-! ## The result variable -/

/-- `*((int8_t*) &v) = r`, for a variable of 32 bits. -/
def storeResult (v : BitVec 32) (r : BitVec 8) : BitVec 32 :=
  (v &&& 0xFFFFFF00#32) ||| r.setWidth 32

/-- The variable holds the result. -/
def Seen (v : BitVec 32) (r : BitVec 8) : Prop := storeResult v r = r.signExtend 32

theorem storeResult_bit (v : BitVec 32) (r : BitVec 8) {i : Nat} (hi : i < 32) :
    (storeResult v r).getLsbD i = if i < 8 then r.getLsbD i else v.getLsbD i := by
  have hmask : ∀ i < 32, (0xFFFFFF00#32).getLsbD i = decide (8 ≤ i) := by decide
  unfold storeResult
  rw [BitVec.getLsbD_or, BitVec.getLsbD_and, BitVec.getLsbD_setWidth, hmask i hi]
  by_cases h8 : i < 8
  · rw [if_pos h8, decide_eq_false (by omega), decide_eq_true hi, Bool.and_false, Bool.false_or,
      Bool.true_and]
  · rw [if_neg h8, decide_eq_true (by omega), BitVec.getLsbD_of_ge r i (by omega), Bool.and_true,
      Bool.and_false, Bool.or_false]

theorem storeResult_eq_iff (v : BitVec 32) (r : BitVec 8) :
    Seen v r ↔ v >>> 8 = r.signExtend 32 >>> 8 := by
  constructor
  · intro h
    apply BitVec.eq_of_getLsbD_eq
    intro i hi
    rw [BitVec.getLsbD_ushiftRight, BitVec.getLsbD_ushiftRight, ← h]
    by_cases h32 : 8 + i < 32
    · rw [storeResult_bit v r h32, if_neg (by omega)]
    · rw [BitVec.getLsbD_of_ge _ _ (by omega), BitVec.getLsbD_of_ge _ _ (by omega)]
  · intro h
    apply BitVec.eq_of_getLsbD_eq
    intro i hi
    rw [storeResult_bit v r hi]
    by_cases h8 : i < 8
    · rw [if_pos h8, BitVec.getLsbD_signExtend, decide_eq_true hi, if_pos h8, Bool.true_and]
    · have hbit := congrArg (fun x => x.getLsbD (i - 8)) h
      simp only [BitVec.getLsbD_ushiftRight, Nat.add_sub_cancel' (not_lt.mp h8)] at hbit
      rw [if_neg h8, hbit]

/-! ## The command -/

/-- The request of `mkdir`. -/
def mkdirRequest (currentInode : Nat) (dirname : List UInt8) : EXT2DriverRequest where
  buf := fun _ => 0
  name := fun k => dirname.getD k 0
  nameLen := UInt8.ofNat dirname.length
  parentInode := UInt32.ofNat currentInode
  bufferSize := 0
  isDirectory := true

/-- The message that `mkdir` prints for a result. -/
def mkdirMessage (retCode : BitVec 32) : String :=
  if retCode = -1 then "mkdir failed\n\n"
  else if retCode = 1 then "mkdir: directory already exists\n\n"
  else "mkdir success\n\n"

/-- `mkdir`: what it prints. -/
def mkdir (currentInode : Nat) (argv : List (List UInt8)) : Program Op Op.Reply String :=
  if currentInode = 2 then pure "mkdir: cannot add new folder in /bin directory\n\n"
  else match argv with
    | _ :: dirname :: _ => do
        let code ← syscall (.write (mkdirRequest currentInode dirname))
        pure (mkdirMessage (storeResult 0 (BitVec.ofInt 8 code)))
    | _ => pure "Usage: mkdir <dir>\n\n"

/-- The result -1 arrives as 255, so that every code but 1 is a success. -/
theorem mkdirMessage_success : ∀ r : BitVec 8,
    mkdirMessage (storeResult 0 r) = "mkdir success\n\n" ↔ r ≠ 1 := by decide

section Mkdir

variable {m : Machine} {fs : Fs} {p : Nat} {cmd name : List UInt8} {rest : List (List UInt8)}
  {request : EXT2DriverRequest}

theorem run_mkdir (hp : p ≠ 2) : Program.run answer (mkdir p (cmd :: name :: rest)) m =
    (some (mkdirMessage (storeResult 0
      (BitVec.ofInt 8 (write (mkdirRequest p name) m.enter.fs).1))),
      (answer (.write (mkdirRequest p name)) m).2) := by
  unfold mkdir
  rw [if_neg hp, run_syscall_bind, Program.run_pure]
  rfl

/-! ## What `write` makes of it -/

/-- A directory that `write` adds: one more entry, and a directory behind it unless the parent has
    grown over its slot. -/
theorem write_directory (hc : Consistent fs) (hp : IsDirectory fs.disk request.parentInode.toNat)
    (hdir : isDirRequest request = true) (hcr : Creates request fs.disk)
    (hok : CanGrow request fs.disk ∧ DirFits request fs.disk) :
    (write request fs).1 = 0 ∧ ∃ i, firstFreeInode fs.disk = some i ∧
      (∀ e, e ∈ entries (write request fs).2.disk request.parentInode.toNat ↔
        e = newEntry request i ∨ e ∈ entries fs.disk request.parentInode.toNat) ∧
      (IsDirectory (write request fs).2.disk i ↔
        (firstHit request fs.disk request.parentInode.toNat = none →
          inodeBlockAt i ≠ inodeBlockAt request.parentInode.toNat)) := by
  have h0 := write_creates hc hp hcr
  rcases write_outcome hc hp.isInode fun _ => hok with ⟨hne, -⟩ | ⟨-, -, -, i, ni, L, hcd⟩
  · exact absurd h0 hne
  obtain ⟨A, B, hbefore, hafter, -⟩ := hcd.parentEntries
  refine ⟨h0, i, hcd.first, fun e => ?_, fun hi hmiss ht => ?_, fun hkeep => ?_⟩
  · rw [hafter, hbefore, List.mem_append, List.mem_cons, List.mem_append]
    exact or_left_comm
  · -- the old slot is written back over the new one
    obtain ⟨q, hq, -⟩ | ⟨-, nb, hnb⟩ := hcr.2.2.2
    · rw [hmiss] at hq
      cases hq
    obtain ⟨-, fs₀, ni', L', X, hgrab, hgrow⟩ := write_grow request hc.ready hc.freeSlot hp.isInode
      hp.dir (hc.parentOk hp.isInode hp.dir) hmiss hnb hcd.first
    have hlost := hgrow.mode_lost hc.freeSlot hp (hc.dirOk _ hp).size
      (hgrab.data nb (by simp)).1 ht
    have hmode := isDir_eq_true.mp hi.dir
    rw [show (0x4000 : Nat) = 2 ^ 14 from rfl, Nat.and_two_pow,
      Nat.testBit_lt_two_pow hlost] at hmode
    exact hmode (Nat.zero_mul _)
  · obtain ⟨d₀, hmade⟩ := hcd.made
    have hslot : slot (write request fs).2.disk i = cutNode ni := by
      rcases hcd.newSlot with hs | ⟨hmiss, ht, -⟩
      · exact hs
      · exact absurd ht (hkeep hmiss)
    refine ⟨hcd.isInode, ?_, (hmade.isDir_eq hslot).trans hdir⟩
    rw [hcd.inodes i hcd.isInode, decide_eq_true rfl, Bool.or_true]

end Mkdir

/-- `mkdir` prints a success only if `write` returned 0 and the directory now exists. -/
def Truthful (m : Machine) (p : Nat) (cmd name : List UInt8) (rest : List (List UInt8)) : Prop :=
  (Program.run answer (mkdir p (cmd :: name :: rest)) m).1 = some "mkdir success\n\n" →
    (write (mkdirRequest p name) m.enter.fs).1 = 0 ∧
    ∃ e ∈ entries (Program.run answer (mkdir p (cmd :: name :: rest)) m).2.fs.disk p,
      e.name = name ∧ e.fileType = 2 ∧
      IsDirectory (Program.run answer (mkdir p (cmd :: name :: rest)) m).2.fs.disk e.inode

/-- The current directory is one, and either has the name before it has room for it, or gets a new
    directory, whose slot is not written over by the growth of the parent. -/
structure MakesOrHas (d : Disk) (p : Nat) (name : List UInt8) : Prop where
  dir : IsDirectory d p
  makes : (∃ q, firstHit (mkdirRequest p name) d p = some q ∧
    q.2.named (mkdirRequest p name) = true) ∨
    Creates (mkdirRequest p name) d ∧ name.length < 256 ∧
      (firstHit (mkdirRequest p name) d p = none →
        ∀ i, firstFreeInode d = some i → inodeBlockAt i ≠ inodeBlockAt p)

section Mkdir

variable {m : Machine} {fs : Fs} {p : Nat} {name : List UInt8}

theorem mkdirRequest_parent (hp : p ≤ 896) : (mkdirRequest p name).parentInode.toNat = p :=
  UInt32.toNat_ofNat_of_lt' (by show p < 4294967296; omega)

theorem mkdirRequest_name_iff : requestName (mkdirRequest p name) = name ↔ name.length < 256 := by
  constructor
  · intro h
    rw [← h]
    unfold requestName
    rw [length_bytes]
    exact UInt8.toNat_lt _
  · exact @requestName_root name [] false

/-- What `mkdir` has to be true: `write` returned 1, or it made the directory. -/
theorem truthful_iff {cmd : List UInt8} {rest : List (List UInt8)} (hp : p ≠ 2) :
    Truthful m p cmd name rest ↔
      (BitVec.ofInt 8 (write (mkdirRequest p name) m.enter.fs).1 ≠ 1 →
        (write (mkdirRequest p name) m.enter.fs).1 = 0 ∧
        ∃ e ∈ entries (write (mkdirRequest p name) m.enter.fs).2.disk p,
          e.name = name ∧ e.fileType = 2 ∧
          IsDirectory (write (mkdirRequest p name) m.enter.fs).2.disk e.inode) := by
  unfold Truthful
  rw [run_mkdir hp]
  dsimp only
  rw [Option.some.injEq, mkdirMessage_success]
  rfl

/-- `write` returns 1 if and only if the name comes before the room for it. -/
theorem write_one_iff {request : EXT2DriverRequest} (hc : Consistent fs)
    (hp : IsDirectory fs.disk request.parentInode.toNat) : (write request fs).1 = 1 ↔
      ∃ q, firstHit request fs.disk request.parentInode.toNat = some q ∧
        q.2.named request = true := by
  have hw := write_cases request hc.ready hc.freeSlot hp.isInode fun hd => hc.parentOk hp.isInode hd
  have hunnamed : ∀ {b r}, firstHit request fs.disk request.parentInode.toNat = some (b, r) →
      r.named request = false → ¬ ∃ q,
        firstHit request fs.disk request.parentInode.toNat = some q ∧ q.2.named request = true := by
    rintro b r hhit hn ⟨q, hq, hname⟩
    rw [hhit, Option.some.injEq] at hq
    rw [← hq, hn] at hname
    cases hname
  have hnone : firstHit request fs.disk request.parentInode.toNat = none → ¬ ∃ q,
        firstHit request fs.disk request.parentInode.toNat = some q ∧ q.2.named request = true := by
    rintro hmiss ⟨q, hq, -⟩
    rw [hmiss] at hq
    cases hq
  generalize write request fs = res at hw ⊢
  obtain ⟨code, fs'⟩ := res
  dsimp only at hw ⊢
  cases hw with
  | notDir h =>
    rw [hp.dir] at h
    cases h
  | duplicate b r _ hhit hn => exact iff_of_true rfl ⟨_, hhit, hn⟩
  | noInode b r _ hhit hn => exact iff_of_false (by decide) (hunnamed hhit hn)
  | hole b r _ hhit hn => exact iff_of_false (by decide) (hunnamed hhit hn)
  | noBlock _ hmiss => exact iff_of_false (by decide) (hnone hmiss)
  | halfGrown nb _ hmiss => exact iff_of_false (by decide) (hnone hmiss)
  | grow nb _ hmiss => exact iff_of_false (by decide) (hnone hmiss)

/-- With a parent that is no directory the code is 2. -/
theorem write_two {request : EXT2DriverRequest} (hc : Consistent fs)
    (hp : request.parentInode.toNat ≤ 896) (hd : ¬ IsDirectory fs.disk request.parentInode.toNat) :
    (write request fs).1 = 2 := by
  by_cases h0 : request.parentInode.toNat = 0
  · rw [write_parent_zero h0]
  · have hi : IsInode request.parentInode.toNat := ⟨by omega, hp⟩
    rw [write_of_not_dir hc.ready.layout hi]
    by_contra h
    exact hd (hc.isDirectory hi (Bool.eq_true_of_not_eq_false h))

theorem write_codes {request : EXT2DriverRequest} (hc : Consistent fs)
    (hp : IsDirectory fs.disk request.parentInode.toNat) (h0 : (write request fs).1 ≠ 0)
    (h1 : (write request fs).1 ≠ 1) : (write request fs).1 = -1 := by
  have hw := write_cases request hc.ready hc.freeSlot hp.isInode fun hd => hc.parentOk hp.isInode hd
  generalize write request fs = res at hw h0 h1 ⊢
  obtain ⟨code, fs'⟩ := res
  dsimp only at hw h0 h1 ⊢
  cases hw with
  | notDir h =>
    rw [hp.dir] at h
    cases h
  | duplicate => exact absurd rfl h1
  | noInode => rfl
  | hole => exact absurd rfl h0
  | noBlock => rfl
  | halfGrown => rfl
  | grow => exact absurd rfl h0

/-- In a consistent state, where a new directory fits into the pointers of its parent and finds a
    block, `mkdir` tells the truth exactly if it does not call `write`, the name exists, or the
    directory can be made. -/
theorem mkdir_truthful_iff {cmd : List UInt8} {rest : List (List UInt8)} (hc : Consistent m.fs)
    (hp : p ≤ 896) (hok : Creates (mkdirRequest p name) m.fs.disk →
      CanGrow (mkdirRequest p name) m.fs.disk ∧ DirFits (mkdirRequest p name) m.fs.disk) :
    Truthful m p cmd name rest ↔ p = 2 ∨ MakesOrHas m.fs.disk p name := by
  by_cases h2 : p = 2
  · refine iff_of_true (fun h => ?_) (Or.inl h2)
    unfold mkdir at h
    rw [if_pos h2, Program.run_pure] at h
    exact absurd (Option.some.inj h) (by decide)
  rw [truthful_iff h2, or_iff_right h2]
  have hce : Consistent m.enter.fs := hc.withStack _
  have hpar : (mkdirRequest p name).parentInode.toNat = p := mkdirRequest_parent hp
  rw [← enter_disk m] at hok ⊢
  generalize m.enter.fs = fs at hce hok ⊢
  by_cases hd : IsDirectory fs.disk p
  · have hd' : IsDirectory fs.disk (mkdirRequest p name).parentInode.toNat := by rwa [hpar]
    have hone := write_one_iff hce hd'
    rw [hpar] at hone
    by_cases hcr : Creates (mkdirRequest p name) fs.disk
    · obtain ⟨h0, i, hi, hmem, hdir⟩ := write_directory hce hd' rfl hcr (hok hcr)
      rw [hpar] at hmem hdir
      constructor
      · intro h
        obtain ⟨-, e, he, hname, -, hed⟩ := h (by rw [h0]; decide)
        have hlen : name.length < 256 := by
          rcases (hmem e).mp he with hnew | hold
          · rw [hnew] at hname
            exact mkdirRequest_name_iff.mp hname
          · rw [← hname]
            exact Nat.lt_succ_of_le (hce.name_le hd hold)
        refine ⟨hd, Or.inr ⟨hcr, hlen, fun hmiss j hj => ?_⟩⟩
        rw [hi, Option.some.injEq] at hj
        rw [← hj]
        rcases (hmem e).mp he with hnew | hold
        · rw [hnew] at hed
          exact hdir.mp hed hmiss
        · have hreq := firstHit_none_names hmiss e hold
          rw [mkdirRequest_name_iff.mpr hlen] at hreq
          exact absurd hname hreq
      · rintro ⟨-, ⟨q, hq, hn⟩ | ⟨-, hlen, hkeep⟩⟩ -
        · rw [hcr.unnamed (by rwa [hpar])] at hn
          cases hn
        · exact ⟨h0, newEntry (mkdirRequest p name) i, (hmem _).mpr (Or.inl rfl),
            mkdirRequest_name_iff.mpr hlen, rfl, hdir.mpr fun hmiss => hkeep hmiss i hi⟩
    · have h0 : (write (mkdirRequest p name) fs).1 ≠ 0 := fun h0 => by
        rcases write_outcome hce hd'.isInode fun hc => absurd hc hcr with ⟨hne, -⟩ | ⟨-, -, hc, -⟩
        · exact hne h0
        · exact hcr hc
      by_cases h1 : (write (mkdirRequest p name) fs).1 = 1
      · refine iff_of_true (fun h => absurd (by rw [h1]; rfl) h) ⟨hd, Or.inl (hone.mp h1)⟩
      · refine iff_of_false (fun h => ?_) ?_
        · rw [write_codes hce hd' h0 h1] at h
          exact absurd (h (by decide)).1 (by decide)
        · rintro ⟨-, hq | ⟨hc, -⟩⟩
          · exact h1 (hone.mpr hq)
          · exact hcr hc
  · refine iff_of_false (fun h => ?_) fun h => hd h.dir
    rw [write_two hce (by rwa [hpar]) (by rwa [hpar])] at h
    exact absurd (h (by decide)).1 (by decide)

end Mkdir

/-- A result variable holds the result if and only if its upper three bytes were those of the
    result's extension; and in a consistent state, where a new directory fits into the pointers of
    its parent and finds a block, `mkdir` tells the truth if and only if it does not call `write`,
    the name comes before the room for it, or the directory is made. -/
theorem results_seen_iff {m : Machine} {p : Nat} {cmd name : List UInt8} {rest : List (List UInt8)}
    (hc : Consistent m.fs) (hp : p ≤ 896) (hok : Creates (mkdirRequest p name) m.fs.disk →
      CanGrow (mkdirRequest p name) m.fs.disk ∧ DirFits (mkdirRequest p name) m.fs.disk) :
    (∀ v r, Seen v r ↔ v >>> 8 = r.signExtend 32 >>> 8) ∧
      (Truthful m p cmd name rest ↔ p = 2 ∨ MakesOrHas m.fs.disk p name) :=
  ⟨storeResult_eq_iff, mkdir_truthful_iff hc hp hok⟩

/-- `mkdir a` in the root directory of a fresh file system. -/
theorem results_seen_fresh : Seen 0 0 ∧ Truthful (Machine.zeros freshFs) 1 [109] [97] [] := by
  have hf := isFresh_freshFs.formatted
  have hname : requestName (mkdirRequest 1 [97]) = [97] := mkdirRequest_name_iff.mpr (by decide)
  have hdot : requestName (mkdirRequest 1 [97]) ≠ [46] ∧
      requestName (mkdirRequest 1 [97]) ≠ [46, 46] := by
    rw [hname]
    decide
  have hstop := hf.stop hdot.1 hdot.2
  have hcare : Careful (.write (mkdirRequest 1 [97])) freshFs := hf.careful rfl hdot.1 hdot.2
  obtain ⟨hseen, htruth⟩ := @results_seen_iff (Machine.zeros freshFs) 1 [109] [97] [] hf.consistent
    (by decide) (hcare.write _ rfl)
  refine ⟨(hseen 0 0).mpr (by decide), htruth.mpr (Or.inr ⟨hf.isDirectory_iff.mpr rfl, Or.inr
    ⟨⟨by decide, (hf.isDirectory_iff.mpr rfl).dir, ⟨2, hf.firstFreeInode⟩,
      Or.inl ⟨_, hstop.firstHit, hstop.unnamed⟩⟩, by decide, fun hmiss => ?_⟩⟩)⟩
  rw [show firstHit (mkdirRequest 1 [97])
    (Machine.zeros freshFs).fs.disk 1 = _ from hstop.firstHit] at hmiss
  cases hmiss

/-- The result -1 in a variable that starts at 0 is 255. In a current directory that is none,
    `mkdir` reports a success. -/
theorem results_not_seen : ¬ Seen 0 (-1) ∧ ¬ Truthful (Machine.zeros freshFs) 3 [109] [97] [] := by
  have hbyte : storeResult 0 (-1) ≠ (-1 : BitVec 8).signExtend 32 := by decide
  refine ⟨hbyte, fun h => ?_⟩
  have hf := isFresh_freshFs.formatted
  have htwo : (write (mkdirRequest 3 [97]) (Machine.zeros freshFs).enter.fs).1 = 2 :=
    write_two (hf.consistent.withStack _) (by decide) fun hd =>
      absurd (hf.isDirectory_iff.mp hd) (by decide)
  have hfalse := (truthful_iff (by decide)).mp h
  rw [htwo] at hfalse
  exact absurd (hfalse (by decide)).1 (by decide)

end LossOs.Shell
