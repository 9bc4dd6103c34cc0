/-
  What the passes over directory blocks touch.

  Nothing is assumed of a block here: lengths and offsets are whatever the bytes say. Each record
  loop is written again as an `Access`, load by load as the source has it (`lookupAccess`,
  `scanAccess`, `findAccess`), and is the loop of the model with a record of what it touches
  (`lookupAccess_reads`, ...).

  No pass leaves its buffer, and none of the record loops takes more than 512 rounds. The clearing
  loop of `delete` is the exception (`scans_survive_iff`): it counts with 8 bits up to a name length
  of 16 bits. The length that `delete` has compared is that of its first copy of the block; it
  clears in a second one, and where a header reaches behind the 512 bytes that are read, the two
  copies need not agree.
-/
import LossOs.Ext2.Fresh
import LossOs.Ext2.Stored
import LossOs.Lib.Access

namespace LossOs.Ext2

open LossOs.Lib LossOs.Lib.Access

/-! ## The programs -/

/-- `memcmp` of `n` bytes at offset `o` with bytes outside of the buffer. -/
def memcmpAccess (o : Nat) (s2 : Mem) : Nat → Access Int
  | 0 => pure 0
  | n + 1 => do
      let c ← load8 o
      if c < s2 0 then pure (-1)
      else if c > s2 0 then pure 1
      else memcmpAccess (o + 1) (view s2 1) n

/-- The comparison of a record with the name of the request. -/
def namedAccess (request : EXT2DriverRequest) (off : Nat) : Access Bool := do
  let nameLen ← load16 (off + 6)
  if nameLen = request.nameLen.toNat then
    let c ← memcmpAccess (off + 9) request.name nameLen
    pure (c == 0)
  else pure false

/-- A record of which `inode` is the inode number is live and has the name. -/
def foundAccess (request : EXT2DriverRequest) (inode off : Nat) : Access Bool :=
  if inode ≠ 0 then namedAccess request off else pure false

/-- The record loop of `read` and `read_directory`. -/
def lookupAccess (request : EXT2DriverRequest) (offset : Nat) : Access (Option (Nat × Nat)) :=
  if _h : offset < 512 then do
    round
    let inode ← load32 offset
    let found ← foundAccess request inode offset
    if found then
      let entryInode ← load32 offset
      let fileType ← load8 (offset + 8)
      pure (some (entryInode, fileType.toNat))
    else
      let recLen ← load16 (offset + 4)
      if _h' : recLen = 0 then pure none
      else lookupAccess request (offset + recLen)
  else pure none
  termination_by 512 - offset

/-- The record loop of `write`. -/
def scanAccess (request : EXT2DriverRequest) (off : Nat) : Access Scan :=
  if _h : off < 512 then do
    round
    let nameLen ← load16 (off + 6)
    let actual := getEntryRecordLen (UInt8.ofNat nameLen)
    let inode ← load32 off
    let duplicate ← foundAccess request inode off
    if duplicate then pure .duplicate
    else
      let recLen ← load16 (off + 4)
      if inode ≠ 0 ∧ recLen > actual ∧ recLen - actual ≥ getEntryRecordLen request.nameLen then
        pure (.hole off)
      else if _h' : recLen = 0 then pure .done
      else scanAccess request (off + recLen)
  else pure .done
  termination_by 512 - off

/-- The record loop of `delete`. -/
def findAccess (request : EXT2DriverRequest) (prev : Option Nat) (offset : Nat) :
    Access (Option (Nat × Option Nat)) :=
  if _h : offset < 512 then do
    round
    let recLen ← load16 (offset + 4)
    if _h' : recLen = 0 then pure none
    else
      let inode ← load32 offset
      let found ← foundAccess request inode offset
      if found then pure (some (offset, prev))
      else findAccess request (some offset) (offset + recLen)
  else pure none
  termination_by 512 - offset

/-- The insertion of `write`. -/
def insertAccess (request : EXT2DriverRequest) (newIno off : Nat) : Access Unit := do
  let nameLen ← load16 (off + 6)
  let actual := getEntryRecordLen (UInt8.ofNat nameLen)
  let recLen ← load16 (off + 4)
  let hole := recLen - actual
  let newOff := off + actual
  store32 newOff newIno
  store16 (newOff + 6) request.nameLen.toNat
  store8 (newOff + 8) (requestFileType request)
  store16 (newOff + 4) hole
  copy (newOff + 9) request.name request.nameLen.toNat
  store16 (off + 4) actual

/-- The clearing loop of `delete`, with an index of 8 bits: `none` when it has not ended after `k`
    rounds. -/
def clearAccess (off : Nat) : (k : Nat) → (i : UInt8) → Access (Option Unit)
  | 0, _ => pure none
  | k + 1, i => do
      let nameLen ← load16 (off + 6)
      if i.toNat < nameLen then
        store8 (off + 9 + i.toNat) 0
        clearAccess off k (i + 1)
      else pure (some ())

/-- The removal of `delete`, whose clearing loop gets `k` rounds. -/
def removeAccess (k : Nat) (prev : Option Nat) (off : Nat) : Access (Option Unit) :=
  match prev with
  | some p => do
      let prevLen ← load16 (p + 4)
      let recLen ← load16 (off + 4)
      store16 (p + 4) (prevLen + recLen)
      store32 off 0
      store16 (off + 4) 0
      let cleared ← clearAccess off k 0
      match cleared with
      | none => pure none
      | some () =>
          store8 (off + 8) 0
          store16 (off + 6) 0
          pure (some ())
  | none => do
      store32 off 0
      pure (some ())

/-! ## What the loops compute -/

section Values

variable {request : EXT2DriverRequest} {off inode : Nat}

theorem memcmpAccess_reads (o : Nat) (s2 : Mem) (n : Nat) :
    Reads (memcmpAccess o s2 n) fun m => memcmp (view m o) s2 n := by
  induction n generalizing o s2 with
  | zero => exact Reads.pure 0
  | succ n ih =>
    refine Reads.congr (reads_load8.bind fun c => Reads.ite (Reads.pure _)
      (Reads.ite (Reads.pure _) (ih (o + 1) _))) fun m => ?_
    have hview : view (view m o) 1 = view m (o + 1) := by
      funext k
      rw [view_apply, view_apply, view_apply, Nat.add_assoc]
    rw [memcmp, hview]
    rfl

theorem namedAccess_reads : Reads (namedAccess request off) fun m => nameMatches request m off := by
  refine Reads.congr (reads_load16.bind fun nameLen => Reads.ite
    ((memcmpAccess_reads (off + 9) request.name nameLen).bind fun c => Reads.pure _)
    (Reads.pure _)) fun m => ?_
  unfold nameMatches
  by_cases h : entryNameLen m off = request.nameLen.toNat
  · rw [show rd16 m (off + 6) = entryNameLen m off from rfl, if_pos h, beq_iff_eq.mpr h,
      Bool.true_and]
  · rw [show rd16 m (off + 6) = entryNameLen m off from rfl, if_neg h,
      beq_eq_false_iff_ne.mpr h, Bool.false_and]

theorem foundAccess_reads : Reads (foundAccess request inode off) fun m =>
    decide (inode ≠ 0 ∧ nameMatches request m off = true) := by
  unfold foundAccess
  by_cases h : inode = 0
  · simpa [h] using Reads.pure false
  · simpa [h] using namedAccess_reads

/-- The first program is the record loop of `read`. -/
theorem lookupAccess_reads (request : EXT2DriverRequest) (off : Nat) :
    Reads (lookupAccess request off) fun m => lookupBlock request m off := by
  induction hn : 512 - off using Nat.strong_induction_on generalizing off with
  | _ n ih =>
    rw [lookupAccess]
    by_cases h : off < 512
    · rw [dif_pos h]
      refine Reads.congr (reads_round.bind fun _ => reads_load32.bind fun inode =>
        foundAccess_reads.bind fun found => Reads.ite
          (reads_load32.bind fun entryInode => reads_load8.bind fun fileType => Reads.pure _)
          (reads_load16.bind fun recLen => Reads.dite (fun _ => Reads.pure _) fun h0 =>
            ih (512 - (off + recLen)) (by omega) (off + recLen) rfl)) fun m => ?_
      conv_rhs => rw [lookupBlock, dif_pos h]
      simp only [decide_eq_true_eq]
      rfl
    · rw [dif_neg h]
      apply Reads.congr (Reads.pure _)
      intro m
      rw [lookupBlock, dif_neg h]

/-- The second program is the record loop of `write`. -/
theorem scanAccess_reads (request : EXT2DriverRequest) (off : Nat) :
    Reads (scanAccess request off) fun m => scanBlock request m off := by
  induction hn : 512 - off using Nat.strong_induction_on generalizing off with
  | _ n ih =>
    rw [scanAccess]
    by_cases h : off < 512
    · rw [dif_pos h]
      refine Reads.congr (reads_round.bind fun _ => reads_load16.bind fun nameLen =>
        reads_load32.bind fun inode => foundAccess_reads.bind fun duplicate => Reads.ite
          (Reads.pure _)
          (reads_load16.bind fun recLen => Reads.ite (Reads.pure _)
            (Reads.dite (fun _ => Reads.pure _) fun h0 =>
              ih (512 - (off + recLen)) (by omega) (off + recLen) rfl))) fun m => ?_
      conv_rhs => rw [scanBlock, dif_pos h]
      simp only [decide_eq_true_eq]
      rfl
    · rw [dif_neg h]
      apply Reads.congr (Reads.pure _)
      intro m
      rw [scanBlock, dif_neg h]

/-- The third program is the record loop of `delete`. -/
theorem findAccess_reads (request : EXT2DriverRequest) (prev : Option Nat) (off : Nat) :
    Reads (findAccess request prev off) fun m => findEntry request m prev off := by
  induction hn : 512 - off using Nat.strong_induction_on generalizing prev off with
  | _ n ih =>
    rw [findAccess]
    by_cases h : off < 512
    · rw [dif_pos h]
      refine Reads.congr (reads_round.bind fun _ => reads_load16.bind fun recLen =>
        Reads.dite (fun _ => Reads.pure _) fun h0 => reads_load32.bind fun inode =>
          foundAccess_reads.bind fun found => Reads.ite (Reads.pure _)
            (ih (512 - (off + recLen)) (by omega) (some off) (off + recLen) rfl)) fun m => ?_
      conv_rhs => rw [findEntry, dif_pos h]
      simp only [decide_eq_true_eq]
      rfl
    · rw [dif_neg h]
      apply Reads.congr (Reads.pure _)
      intro m
      rw [findEntry, dif_neg h]

/-- The insertion is that of the model. -/
theorem insertAccess_mem (request : EXT2DriverRequest) (newIno off : Nat) (m : Mem) :
    ((insertAccess request newIno off).run m).mem = insertEntry request newIno off m := rfl

end Values

/-! ## Bounds -/

section Bounds

variable {request : EXT2DriverRequest} {off inode N : Nat}

theorem getEntryRecordLen_le (n : UInt8) : getEntryRecordLen n ≤ 264 := by
  have hlt := n.toNat_lt
  rw [getEntryRecordLen_eq]
  omega

theorem memcmpAccess_bounded {o n : Nat} (s2 : Mem) (h : o + n ≤ N) :
    Bounded N 0 (memcmpAccess o s2 n) := by
  induction n generalizing o s2 with
  | zero => exact Bounded.pure N 0 0
  | succ n ih =>
    exact (bounded_load8 (by omega)).step fun c => Bounded.ite (fun _ => Bounded.pure N 0 _)
      fun _ => Bounded.ite (fun _ => Bounded.pure N 0 _) fun _ => ih _ (by omega)

/-- A record is compared with the name only when the lengths agree, so at most 255 bytes of it. -/
theorem foundAccess_bounded (h : off < 512) : Bounded 8192 0 (foundAccess request inode off) := by
  have hlt := request.nameLen.toNat_lt
  refine Bounded.ite (fun _ => ?_) fun _ => Bounded.pure 8192 0 _
  refine (bounded_load16 (by omega)).step fun nameLen => Bounded.ite (fun hlen => ?_)
    fun _ => Bounded.pure 8192 0 _
  exact (memcmpAccess_bounded _ (by omega)).step fun _ => Bounded.pure 8192 0 _

/-- Each round passes at least one byte of the 512. -/
theorem lookupAccess_bounded (request : EXT2DriverRequest) (off : Nat) :
    Bounded 8192 (512 - off) (lookupAccess request off) := by
  induction hn : 512 - off using Nat.strong_induction_on generalizing off with
  | _ n ih =>
    rw [lookupAccess]
    refine Bounded.dite (fun h => ?_) fun _ => Bounded.pure 8192 _ _
    have hround : 1 + (n - 1) = n := by omega
    rw [← hround]
    refine bounded_round.bind fun _ => (bounded_load32 (by omega)).step fun inode =>
      (foundAccess_bounded h).step fun found => Bounded.ite (fun _ => ?_) fun _ => ?_
    · exact (bounded_load32 (by omega)).step fun _ => (bounded_load8 (by omega)).step fun _ =>
        Bounded.pure 8192 _ _
    · exact (bounded_load16 (by omega)).step fun recLen => Bounded.dite
        (fun _ => Bounded.pure 8192 _ _) fun h0 =>
          (ih (512 - (off + recLen)) (by omega) _ rfl).mono (by omega)

theorem scanAccess_bounded (request : EXT2DriverRequest) (off : Nat) :
    Bounded 8192 (512 - off) (scanAccess request off) := by
  induction hn : 512 - off using Nat.strong_induction_on generalizing off with
  | _ n ih =>
    rw [scanAccess]
    refine Bounded.dite (fun h => ?_) fun _ => Bounded.pure 8192 _ _
    have hround : 1 + (n - 1) = n := by omega
    rw [← hround]
    refine bounded_round.bind fun _ => (bounded_load16 (by omega)).step fun nameLen =>
      (bounded_load32 (by omega)).step fun inode => (foundAccess_bounded h).step fun duplicate =>
        Bounded.ite (fun _ => Bounded.pure 8192 _ _) fun _ => ?_
    exact (bounded_load16 (by omega)).step fun recLen => Bounded.ite
      (fun _ => Bounded.pure 8192 _ _) fun _ => Bounded.dite (fun _ => Bounded.pure 8192 _ _)
        fun h0 => (ih (512 - (off + recLen)) (by omega) _ rfl).mono (by omega)

theorem findAccess_bounded (request : EXT2DriverRequest) (prev : Option Nat) (off : Nat) :
    Bounded 8192 (512 - off) (findAccess request prev off) := by
  induction hn : 512 - off using Nat.strong_induction_on generalizing prev off with
  | _ n ih =>
    rw [findAccess]
    refine Bounded.dite (fun h => ?_) fun _ => Bounded.pure 8192 _ _
    have hround : 1 + (n - 1) = n := by omega
    rw [← hround]
    exact bounded_round.bind fun _ => (bounded_load16 (by omega)).step fun recLen =>
      Bounded.dite (fun _ => Bounded.pure 8192 _ _) fun h0 =>
        (bounded_load32 (by omega)).step fun inode => (foundAccess_bounded h).step fun found =>
          Bounded.ite (fun _ => Bounded.pure 8192 _ _) fun _ =>
            (ih (512 - (off + recLen)) (by omega) _ _ rfl).mono (by omega)

/-- The new record ends below 512 + 264 + 9 + 255. -/
theorem insertAccess_bounded (newIno : Nat) (h : off < 512) :
    Bounded 8192 0 (insertAccess request newIno off) := by
  have hlt := request.nameLen.toNat_lt
  refine (bounded_load16 (by omega)).step fun nameLen => (bounded_load16 (by omega)).step
    fun recLen => ?_
  have hle := getEntryRecordLen_le (UInt8.ofNat nameLen)
  exact (bounded_store32 (by omega) _).step fun _ => (bounded_store16 (by omega) _).step fun _ =>
    (bounded_store8 (by omega) _).step fun _ => (bounded_store16 (by omega) _).step fun _ =>
      (bounded_copy (by omega) _).step fun _ => bounded_store16 (by omega) _

/-- Nor does the clearing loop leave the buffer, however long it runs: its index has 8 bits. -/
theorem clearAccess_bounded (h : off < 512) (k : Nat) (i : UInt8) :
    Bounded 8192 0 (clearAccess off k i) := by
  induction k generalizing i with
  | zero => exact Bounded.pure 8192 0 _
  | succ k ih =>
    have hlt := i.toNat_lt
    exact (bounded_load16 (by omega)).step fun nameLen => Bounded.ite
      (fun _ => (bounded_store8 (by omega) _).step fun _ => ih (i + 1))
      fun _ => Bounded.pure 8192 0 _

theorem removeAccess_bounded (k : Nat) {prev : Option Nat} (hprev : ∀ p ∈ prev, p < 512)
    (h : off < 512) : Bounded 8192 0 (removeAccess k prev off) := by
  cases prev with
  | none => exact (bounded_store32 (by omega) _).step fun _ => Bounded.pure 8192 0 _
  | some p =>
    have hp := hprev p rfl
    refine (bounded_load16 (by omega)).step fun prevLen => (bounded_load16 (by omega)).step
      fun recLen => (bounded_store16 (by omega) _).step fun _ =>
        (bounded_store32 (by omega) _).step fun _ => (bounded_store16 (by omega) _).step fun _ =>
          (clearAccess_bounded h k 0).step fun cleared => ?_
    cases cleared with
    | none => exact Bounded.pure 8192 0 _
    | some u => exact (bounded_store8 (by omega) _).step fun _ =>
        (bounded_store16 (by omega) _).step fun _ => Bounded.pure 8192 0 _

end Bounds

/-! ## The clearing loop -/

section Clearing

variable {m : Mem} {off o : Nat}

theorem nameLen_store8 (h : off + 8 ≤ o) (v : UInt8) :
    entryNameLen (wr8 m o v) off = entryNameLen m off := rd16_wr8 (by omega)

/-- Clearing `n + 1` bytes: the first one, then the rest. -/
theorem fill_succ (m : Mem) (o n : Nat) : fill (wr8 m o 0) (o + 1) 0 n = fill m o 0 (n + 1) := by
  funext p
  unfold fill blit wr8
  by_cases hp : p = o
  · rw [if_neg (by omega), if_pos hp, if_pos (by omega)]
  · by_cases hin : o + 1 ≤ p ∧ p < o + 1 + n
    · rw [if_pos hin, if_pos (by omega)]
    · rw [if_neg hin, if_neg hp, if_neg (by omega)]

/-- A length that fits into the index is reached by it. -/
theorem clearAccess_run {k : Nat} {i : UInt8} (hi : i.toNat ≤ entryNameLen m off)
    (h255 : entryNameLen m off ≤ 255) (hk : entryNameLen m off - i.toNat < k) :
    ((clearAccess off k i).run m).value = some () ∧ ((clearAccess off k i).run m).mem =
      fill m (off + 9 + i.toNat) 0 (entryNameLen m off - i.toNat) := by
  induction k generalizing m i with
  | zero => omega
  | succ k ih =>
    have hlen : rd16 m (off + 6) = entryNameLen m off := rfl
    by_cases h : i.toNat < entryNameLen m off
    · have hnext : (i + 1).toNat = i.toNat + 1 := by
        rw [UInt8.toNat_add]
        exact Nat.mod_eq_of_lt (by simp; omega)
      have hkeep : entryNameLen (wr8 m (off + 9 + i.toNat) 0) off = entryNameLen m off :=
        nameLen_store8 (by omega) 0
      have hrest := @ih (wr8 m (off + 9 + i.toNat) 0) (i + 1) (by omega) (by omega) (by omega)
      simp only [clearAccess, bind_value, bind_mem, load16_value, load16_mem, hlen, if_pos h,
        store8_mem]
      refine ⟨hrest.1, hrest.2.trans ?_⟩
      rw [hkeep, hnext, ← Nat.add_assoc, fill_succ]
      congr 1
      omega
    · have hend : entryNameLen m off - i.toNat = 0 := by omega
      simp only [clearAccess, bind_value, bind_mem, load16_value, load16_mem, hlen, if_neg h,
        pure_value, pure_mem, hend]
      refine ⟨trivial, ?_⟩
      funext p
      rw [fill_of_not_mem (by omega)]

/-- A length that does not fit into the index keeps the loop going for ever. -/
theorem clearAccess_never (h : 255 < entryNameLen m off) (k : Nat) (i : UInt8) :
    ((clearAccess off k i).run m).value = none := by
  induction k generalizing m i with
  | zero => rfl
  | succ k ih =>
    have hi := i.toNat_lt
    have hlen : rd16 m (off + 6) = entryNameLen m off := rfl
    simp only [clearAccess, bind_value, load16_value, load16_mem, hlen, store8_mem,
      if_pos (show i.toNat < entryNameLen m off by omega)]
    apply ih
    rwa [nameLen_store8 (by omega)]

theorem removeAccess_none (k off : Nat) (m : Mem) :
    ((removeAccess k none off).run m).value = some () ∧
      ((removeAccess k none off).run m).mem = removeEntry none off m := ⟨rfl, rfl⟩

/-- What `removeAccess` has stored when its clearing loop begins. -/
def unlinked (m : Mem) (p off : Nat) : Mem :=
  wr16 (wr32 (wr16 m (p + 4) (entryRecLen m p + entryRecLen m off)) off 0) (off + 4) 0

theorem unlinked_eq (m : Mem) (p off : Nat) :
    wr16 (wr32 (wr16 m (p + 4) (rd16 m (p + 4) + rd16 m (off + 4))) off 0) (off + 4) 0 =
      unlinked m p off := rfl

theorem nameLen_unlinked {p : Nat} (h : p < off) :
    entryNameLen (unlinked m p off) off = entryNameLen m off := by
  unfold unlinked entryNameLen
  rw [rd16_wr16_of_ne (by omega), rd16_wr32 (by omega), rd16_wr16_of_ne (by omega)]

/-- A name of at most 255 bytes is cleared, and the result is that of the model. -/
theorem removeAccess_some {k p : Nat} (h : p < off) (h255 : entryNameLen m off ≤ 255)
    (hk : entryNameLen m off < k) : ((removeAccess k (some p) off).run m).value = some () ∧
      ((removeAccess k (some p) off).run m).mem = removeEntry (some p) off m := by
  have hlen : entryNameLen (unlinked m p off) off = entryNameLen m off := nameLen_unlinked h
  rw [← hlen] at h255 hk
  obtain ⟨hv, hm⟩ := clearAccess_run (i := 0) (Nat.zero_le _) h255 hk
  rw [hlen] at hm
  simp only [removeAccess, bind_value, bind_mem, load16_value, load16_mem, store16_mem,
    store32_mem, unlinked_eq, hv, hm, store8_mem, pure_value, pure_mem]
  exact ⟨trivial, rfl⟩

/-- A longer one never is. -/
theorem removeAccess_never {p : Nat} (h : p < off) (h255 : 255 < entryNameLen m off) (k : Nat) :
    ((removeAccess k (some p) off).run m).value = none := by
  rw [← nameLen_unlinked h] at h255
  simp only [removeAccess, bind_value, load16_value, load16_mem, store16_mem, store32_mem,
    unlinked_eq, clearAccess_never h255 k 0, pure_value]

end Clearing

/-! ## The record that `delete` finds -/

/-- The record loop of `delete` comes to offset `off`, from the record at `prev`. -/
inductive Passes (request : EXT2DriverRequest) (m : Mem) : (prev : Option Nat) → (off : Nat) → Prop
  | start : Passes request m none 0
  | next {prev : Option Nat} {off : Nat} (h : Passes request m prev off) (hlt : off < 512)
      (hlen : entryRecLen m off ≠ 0)
      (hnot : ¬ (entryInode m off ≠ 0 ∧ nameMatches request m off = true)) :
      Passes request m (some off) (off + entryRecLen m off)

/-- The first live record of the name in a block is the one at `off`, and the record before it is
    at `prev`. -/
structure FirstRecord (request : EXT2DriverRequest) (m : Mem) (prev : Option Nat) (off : Nat) :
    Prop where
  passes : Passes request m prev off
  lt : off < 512
  recLen : entryRecLen m off ≠ 0
  live : entryInode m off ≠ 0
  name : nameMatches request m off = true

section Found

variable {request : EXT2DriverRequest} {fs : Fs} {m parent : Mem} {prev : Option Nat} {off p : Nat}

theorem Passes.prev_lt (h : Passes request m prev off) : ∀ p ∈ prev, p < off := by
  cases h with
  | start => exact fun p hp => absurd hp (by simp)
  | next h hlt hlen hnot =>
    intro p hp
    obtain rfl := Option.some.inj hp
    omega

theorem Passes.findEntry_eq (h : Passes request m prev off) :
    findEntry request m none 0 = findEntry request m prev off := by
  induction h with
  | start => rfl
  | @next prev off _ hlt hlen hnot ih =>
    rw [ih]
    conv_lhs => rw [findEntry, dif_pos hlt, dif_neg hlen, if_neg hnot]

theorem Passes.firstRecord (h : Passes request m prev off) {off' : Nat} {prev' : Option Nat}
    (hf : findEntry request m prev off = some (off', prev')) :
    FirstRecord request m prev' off' := by
  induction hn : 512 - off using Nat.strong_induction_on generalizing prev off with
  | _ n ih =>
    rw [findEntry] at hf
    split at hf
    · next hlt =>
      split at hf
      · cases hf
      · next hlen =>
        split at hf
        · next hfound =>
          cases hf
          exact ⟨h, hlt, hlen, hfound.1, hfound.2⟩
        · next hnot => exact ih _ (by omega) (h.next hlt hlen hnot) hf rfl
    · cases hf

theorem findEntry_iff :
    findEntry request m none 0 = some (off, prev) ↔ FirstRecord request m prev off := by
  constructor
  · intro h
    exact Passes.start.firstRecord h
  · intro h
    rw [h.passes.findEntry_eq, findEntry, dif_pos h.lt, dif_neg h.recLen, if_pos ⟨h.live, h.name⟩]

/-- The search of `delete` stops in the first block that has a record of the name. -/
theorem findDir_iff {b : Nat} : findDir request parent fs = some (b, off, prev) ↔
    ∃ pre post, dirBlocks parent = pre ++ b :: post ∧
      (∀ c ∈ pre, ∀ o q, ¬ FirstRecord request (fs.readBlocks c) q o) ∧
      FirstRecord request (fs.readBlocks b) prev off := by
  have hnone : ∀ c, (findEntry request (fs.readBlocks c) none 0).map (fun r => (c, r)) = none ↔
      ∀ o q, ¬ FirstRecord request (fs.readBlocks c) q o := by
    intro c
    rw [Option.map_eq_none_iff, Option.eq_none_iff_forall_ne_some]
    exact ⟨fun h o q hr => h (o, q) (findEntry_iff.mpr hr),
      fun h r hr => h r.1 r.2 (findEntry_iff.mp hr)⟩
  unfold findDir
  rw [findSome?_skip_zero, List.findSome?_eq_some_iff]
  constructor
  · rintro ⟨pre, c, post, hbs, hc, hpre⟩
    obtain ⟨r, hr, heq⟩ := Option.map_eq_some_iff.mp hc
    cases heq
    exact ⟨pre, post, hbs, fun c hc => (hnone c).mp (hpre c hc), findEntry_iff.mp hr⟩
  · rintro ⟨pre, post, hbs, hpre, hr⟩
    exact ⟨pre, b, post, hbs, by rw [findEntry_iff.mpr hr]; rfl, fun c hc =>
      (hnone c).mpr (hpre c hc)⟩

theorem scanBlock_hole_lt {o : Nat} (h : scanBlock request m o = .hole off) : off < 512 := by
  induction hn : 512 - o using Nat.strong_induction_on generalizing o with
  | _ n ih =>
    rw [scanBlock] at h
    split at h
    · next hlt =>
      dsimp only at h
      split at h
      · cases h
      · split at h
        · obtain rfl := Scan.hole.inj h
          exact hlt
        · split at h
          · cases h
          · exact ih _ (by omega) h rfl
    · cases h

end Found

/-! ## Any blocks -/

/-- `delete` goes on to remove the record at `off` of its second copy of the block. -/
def Proceeds (request : EXT2DriverRequest) (fs : Fs) (target : Mem) (off : Nat) : Prop :=
  entryInode target off ≠ 0 ∧
    if request.isDirectory = true then
      entryFileType target off = 2 ∧ isDirectoryEmpty (entryInode target off) fs = true
    else entryFileType target off = 1

/-- The passes over the blocks of a directory stay below offset 8192 and end, a record loop after
    at most 512 records; each is what the model computes. `stack` is what lies behind the second
    buffer of `delete`. -/
structure Survives (request : EXT2DriverRequest) (fs : Fs) (stack parent : Mem) : Prop where
  lookup : Bounded 8192 512 (lookupAccess request 0) ∧
    Reads (lookupAccess request 0) fun m => lookupBlock request m 0
  scan : Bounded 8192 512 (scanAccess request 0) ∧
    Reads (scanAccess request 0) fun m => scanBlock request m 0
  find : Bounded 8192 512 (findAccess request none 0) ∧
    Reads (findAccess request none 0) fun m => findEntry request m none 0
  insert : ∀ b off newIno, scanBlock request (fs.readBlocks b) 0 = .hole off →
    Bounded 8192 0 (insertAccess request newIno off) ∧
      ∀ m, ((insertAccess request newIno off).run m).mem = insertEntry request newIno off m
  remove : ∀ b off prev, findDir request parent fs = some (b, off, prev) →
    Proceeds request fs ((fs.withStack stack).readBlocks b) off →
      (∀ k, Bounded 8192 0 (removeAccess k prev off)) ∧
      ∃ k, ((removeAccess k prev off).run ((fs.withStack stack).readBlocks b)).value = some () ∧
        ((removeAccess k prev off).run ((fs.withStack stack).readBlocks b)).mem =
          removeEntry prev off ((fs.withStack stack).readBlocks b)

/-- Where the header of the record to remove reaches behind the 512 bytes of its block, the second
    copy gives it a name length of 8 bits. A record that is the first of its block does not
    count. -/
def SecondCopyFits (request : EXT2DriverRequest) (fs : Fs) (stack parent : Mem) : Prop :=
  ∀ pre b post p off, dirBlocks parent = pre ++ b :: post →
    (∀ c ∈ pre, ∀ o q, ¬ FirstRecord request (fs.readBlocks c) q o) →
    FirstRecord request (fs.readBlocks b) (some p) off → 504 < off →
    Proceeds request fs ((fs.withStack stack).readBlocks b) off →
      entryNameLen ((fs.withStack stack).readBlocks b) off ≤ 255

section AnyBlocks

variable {request : EXT2DriverRequest} {fs : Fs} {stack parent : Mem}

/-- Both copies of a record agree up to the end of the block. -/
theorem nameLen_second {off : Nat} (h : off ≤ 504) (b : Nat) :
    entryNameLen ((fs.withStack stack).readBlocks b) off = entryNameLen (fs.readBlocks b) off := by
  apply rd16_congr
  intro p _ hp
  rw [readBlocks_of_lt _ b (by omega), readBlocks_of_lt _ b (by omega), withStack_disk]

theorem FirstRecord.nameLen_le {m : Mem} {prev : Option Nat} {off : Nat}
    (h : FirstRecord request m prev off) : entryNameLen m off ≤ 255 := by
  have hn := h.name
  unfold nameMatches at hn
  have hlt := request.nameLen.toNat_lt
  have heq : entryNameLen m off = request.nameLen.toNat := by
    have := (Bool.and_eq_true _ _).mp hn
    exact eq_of_beq this.1
  omega

/-- Whatever the blocks hold, every pass survives if and only if the second copy of the record to
    remove fits. -/
theorem scans_survive_iff (request : EXT2DriverRequest) (fs : Fs) (stack parent : Mem) :
    Survives request fs stack parent ↔ SecondCopyFits request fs stack parent := by
  constructor
  · intro h pre b post p off hbs hpre hr hoff hgo
    by_contra hlen
    obtain ⟨-, k, hend, -⟩ :=
      h.remove b off (some p) (findDir_iff.mpr ⟨pre, post, hbs, hpre, hr⟩) hgo
    rw [removeAccess_never (hr.passes.prev_lt p rfl) (by omega)] at hend
    cases hend
  · intro h
    refine ⟨⟨lookupAccess_bounded request 0, lookupAccess_reads request 0⟩,
      ⟨scanAccess_bounded request 0, scanAccess_reads request 0⟩,
      ⟨findAccess_bounded request none 0, findAccess_reads request none 0⟩,
      fun b off newIno hs => ⟨insertAccess_bounded newIno (scanBlock_hole_lt hs),
        insertAccess_mem request newIno off⟩, ?_⟩
    intro b off prev hf hgo
    obtain ⟨pre, post, hbs, hpre, hr⟩ := findDir_iff.mp hf
    have hprev := hr.passes.prev_lt
    have hoff := hr.lt
    refine ⟨fun k => removeAccess_bounded k (fun p hp => (hprev p hp).trans hoff) hoff, ?_⟩
    cases prev with
    | none => exact ⟨0, removeAccess_none 0 off _⟩
    | some p =>
      have h255 : entryNameLen ((fs.withStack stack).readBlocks b) off ≤ 255 := by
        by_cases hcut : 504 < off
        · exact h pre b post p off hbs hpre hr hcut hgo
        · rw [nameLen_second (by omega)]
          exact hr.nameLen_le
      exact ⟨256, removeAccess_some (hprev p rfl) h255 (by omega)⟩

end AnyBlocks

/-! ## A record across the end of its block -/

/-- A directory block of which the second record begins at byte 508: the inode number 7 is on the
    disk, the rest of the header behind the buffer. -/
def cutBlock : Mem := fun o => [5, 0, 0, 0, 252, 1, 2, 0, 1].getD o (if o = 508 then 7 else 0)

/-- A buffer that holds the block, with `l` behind it. -/
def cutCopy (l : List UInt8) : Mem := fun o => if o < 512 then cutBlock o else l.getD (o - 512) 0

/-- The root directory has the block, and the first buffer of `delete` the rest of the header: a
    file `a` with a name of one byte. -/
def cutFs : Fs := (freshFs.writeBlocks 21 cutBlock).withStack (cutCopy [12, 0, 1, 0, 1, 97])

theorem cutFs_readBlocks (l : List UInt8) :
    (cutFs.withStack (cutCopy l)).readBlocks 21 = cutCopy l := by
  funext o
  by_cases h : o < 512
  · rw [readBlocks_of_lt _ 21 h, cutCopy, if_pos h]
    change ((Function.update freshFs.disk 21 (blockOf cutBlock)) 21).mem o = cutBlock o
    rw [Function.update_self, mem_blockOf h]
  · exact dif_neg h

theorem cutCopy_firstRecord :
    FirstRecord (rootRequest [97] [] false) (cutCopy [12, 0, 1, 0, 1, 97]) (some 0) 508 := by
  have hpass := @Passes.next (rootRequest [97] [] false) (cutCopy [12, 0, 1, 0, 1, 97]) none 0
    Passes.start (by decide) (by decide) (by decide)
  rw [show entryRecLen (cutCopy [12, 0, 1, 0, 1, 97]) 0 = 508 by decide] at hpass
  exact ⟨hpass, by decide, by decide, by decide, by decide⟩

/-- The second buffer of `delete` says 257 for the length of that name, and the name is never
    cleared. -/
theorem scans_not_survive : ¬ Survives (rootRequest [97] [] false) cutFs
    (cutCopy [12, 0, 1, 1, 1, 97]) (slot freshFs.disk 1) := by
  intro h
  have hfirst : cutFs.readBlocks 21 = cutCopy [12, 0, 1, 0, 1, 97] :=
    cutFs_readBlocks [12, 0, 1, 0, 1, 97]
  have hsecond := cutFs_readBlocks [12, 0, 1, 1, 1, 97]
  have hrec : FirstRecord (rootRequest [97] [] false) (cutFs.readBlocks 21) (some 0) 508 := by
    rw [hfirst]
    exact cutCopy_firstRecord
  have hgo : Proceeds (rootRequest [97] [] false) cutFs (cutCopy [12, 0, 1, 1, 1, 97]) 508 :=
    ⟨by decide, by rw [if_neg (by decide)]; decide⟩
  have hremove := h.remove 21 508 (some 0)
    (findDir_iff.mpr ⟨[], [], isFresh_freshFs.formatted.rootBlocks, by simp, hrec⟩)
  rw [hsecond] at hremove
  obtain ⟨-, k, hend, -⟩ := hremove hgo
  rw [removeAccess_never (by decide) (by decide)] at hend
  cases hend

end LossOs.Ext2
