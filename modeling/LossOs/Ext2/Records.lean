/-
  The records of a directory block.

  `Tiles m o rs e`: the records `rs` lie in `m` one behind the other from `o` to `e`, each
  with room for its own name. On a block that is tiled from 0 to 512 the record loops of the
  driver are searches in the list `rs` (`scanBlock_eq`, `lookupBlock_eq`, `findEntry_eq`),
  and the edits of `write` and `delete` turn one tiling into another
  (`insertEntry_tiles`, `removeEntry_tiles`, `singleEntry_tiles`, `dirTable_tiles`).
-/
import LossOs.Ext2.Layout

namespace LossOs.Ext2

open LossOs.Lib

/-! ## Records -/

/-- A directory record, with the offset at which it lies. -/
structure Rec where
  off : Nat
  inode : Nat
  recLen : Nat
  name : List UInt8
  fileType : Nat
  deriving DecidableEq, Repr

/-- The record at offset `o`. -/
def recAt (m : Mem) (o : Nat) : Rec where
  off := o
  inode := entryInode m o
  recLen := entryRecLen m o
  name := bytes m (o + 9) (entryNameLen m o)
  fileType := entryFileType m o

theorem recAt_name (m : Mem) (o : Nat) :
    (recAt m o).name = bytes m (o + 9) (entryNameLen m o) := rfl

/-- The bytes that the record itself needs: `get_entry_record_len` of its name. -/
def Rec.size (r : Rec) : Nat := (9 + r.name.length + 3) / 4 * 4

/-- The records `rs` tile the bytes from `o` to `e`. -/
def Tiles (m : Mem) : (o : Nat) → List Rec → (e : Nat) → Prop
  | o, [], e => o = e
  | o, r :: rs, e => recAt m o = r ∧ r.name.length ≤ 255 ∧ r.size ≤ r.recLen ∧
      Tiles m (o + r.recLen) rs e

/-- The records of a block from `o` on, at most `k`. -/
def records (m : Mem) : (k o : Nat) → List Rec
  | 0, _ => []
  | k + 1, o =>
      if o < 512 then
        recAt m o :: if entryRecLen m o = 0 then [] else records m k (o + entryRecLen m o)
      else []

/-- The records of a directory block. -/
def blockRecords (b : Block) : List Rec := records b.mem 512 0

/-- The name a request asks for. -/
def requestName (request : EXT2DriverRequest) : List UInt8 :=
  bytes request.name 0 request.nameLen.toNat

theorem size_le_entryRecLen (r : Rec) : 9 + r.name.length ≤ r.size := by
  unfold Rec.size; omega

theorem getEntryRecordLen_of_le {n : Nat} (h : n ≤ 255) :
    getEntryRecordLen (UInt8.ofNat n) = (9 + n + 3) / 4 * 4 := by
  unfold getEntryRecordLen
  rw [UInt8.toNat_ofNat_of_lt' (by unfold UInt8.size; omega)]
  dsimp only
  rw [if_neg (by omega)]

theorem getEntryRecordLen_eq (n : UInt8) : getEntryRecordLen n = (9 + n.toNat + 3) / 4 * 4 := by
  unfold getEntryRecordLen
  dsimp only
  rw [if_neg (by omega)]

theorem length_requestName (request : EXT2DriverRequest) :
    (requestName request).length = request.nameLen.toNat := length_bytes _ _ _

/-! ## Tilings -/

section Tiles

variable {m m' : Mem} {o e : Nat} {rs xs ys : List Rec}

theorem Tiles.le (h : Tiles m o rs e) : o ≤ e := by
  induction rs generalizing o with
  | nil => exact le_of_eq h
  | cons r rs ih => have := ih h.2.2.2; omega

theorem tiles_append : Tiles m o (xs ++ ys) e ↔ ∃ c, Tiles m o xs c ∧ Tiles m c ys e := by
  induction xs generalizing o with
  | nil =>
    constructor
    · exact fun h => ⟨o, rfl, h⟩
    · rintro ⟨c, rfl, h⟩; exact h
  | cons r xs ih =>
    simp only [List.cons_append, Tiles, ih]
    constructor
    · rintro ⟨h1, h2, h3, c, h4, h5⟩; exact ⟨c, ⟨h1, h2, h3, h4⟩, h5⟩
    · rintro ⟨c, ⟨h1, h2, h3, h4⟩, h5⟩; exact ⟨h1, h2, h3, c, h4, h5⟩

theorem recAt_congr (h : ∀ p, o ≤ p → p < o + 9 + entryNameLen m o → m' p = m p) :
    recAt m' o = recAt m o := by
  have hlen : entryNameLen m' o = entryNameLen m o :=
    rd16_congr fun p h1 h2 => h p (by omega) (by omega)
  unfold recAt
  congr 1
  · exact rd32_congr fun p h1 h2 => h p h1 (by omega)
  · exact rd16_congr fun p h1 h2 => h p (by omega) (by omega)
  · rw [hlen]
    exact bytes_congr fun p h1 h2 => h p (by omega) (by omega)
  · unfold entryFileType
    rw [h (o + 8) (by omega) (by omega)]

/-- A tiling depends on the bytes it covers. -/
theorem Tiles.congr (h : Tiles m o rs e) (hm : ∀ p, o ≤ p → p < e → m' p = m p) :
    Tiles m' o rs e := by
  induction rs generalizing o with
  | nil => exact h
  | cons r rs ih =>
    obtain ⟨h1, h2, h3, h4⟩ := h
    have hle := h4.le
    have hsz := size_le_entryRecLen r
    have hlen : entryNameLen m o = r.name.length := by
      rw [← h1]; exact (length_bytes _ _ _).symm
    refine ⟨?_, h2, h3, ih h4 fun p h5 h6 => hm p (by omega) h6⟩
    rw [← h1]
    exact recAt_congr fun p h5 h6 => hm p h5 (by omega)

theorem Tiles.records_eq (h : Tiles m o rs 512) {k : Nat} (hk : 512 ≤ o + k) :
    records m k o = rs := by
  induction rs generalizing o k with
  | nil =>
    obtain rfl : o = 512 := h
    cases k with
    | zero => rfl
    | succ k => exact if_neg (lt_irrefl _)
  | cons r rs ih =>
    obtain ⟨h1, h2, h3, h4⟩ := h
    have hle := h4.le
    have hsz := size_le_entryRecLen r
    cases k with
    | zero => omega
    | succ k =>
      have hrl : entryRecLen m o = r.recLen := by rw [← h1]; rfl
      unfold records
      rw [if_pos (by omega), hrl, if_neg (by omega), h1, ih h4 (by omega)]

theorem Tiles.blockRecords_eq {b : Block} (h : Tiles b.mem 0 rs 512) : blockRecords b = rs :=
  h.records_eq (by omega)

theorem Tiles.recAt_eq (h : Tiles m o rs e) : ∀ r ∈ rs, recAt m r.off = r := by
  induction rs generalizing o with
  | nil => simp
  | cons r rs ih =>
    intro q hq
    rcases List.mem_cons.mp hq with rfl | hq
    · have h1 := h.1
      rw [← h1]; rfl
    · exact ih h.2.2.2 q hq

/-- A record of a tiling, with the tilings before and behind it. -/
theorem Tiles.split {r : Rec} (h : Tiles m o (xs ++ r :: ys) e) :
    Tiles m o xs r.off ∧ recAt m r.off = r ∧ r.name.length ≤ 255 ∧ r.size ≤ r.recLen ∧
      Tiles m (r.off + r.recLen) ys e := by
  obtain ⟨c, h1, h2, h3, h4, h5⟩ := tiles_append.mp h
  have : r.off = c := by rw [← h2]; rfl
  subst this
  exact ⟨h1, h2, h3, h4, h5⟩

end Tiles

/-! ## Names -/

theorem memcmp_eq_zero {s1 s2 : Mem} {n : Nat} : memcmp s1 s2 n = 0 ↔ ∀ i < n, s1 i = s2 i := by
  induction n generalizing s1 s2 with
  | zero => simp [memcmp]
  | succ n ih =>
    unfold memcmp
    constructor
    · intro h
      by_cases h1 : s1 0 < s2 0
      · rw [if_pos h1] at h; cases h
      · by_cases h2 : s1 0 > s2 0
        · rw [if_neg h1, if_pos h2] at h; cases h
        · rw [if_neg h1, if_neg h2, ih] at h
          intro i hi
          cases i with
          | zero => exact UInt8.le_antisymm (UInt8.not_lt.mp h2) (UInt8.not_lt.mp h1)
          | succ i => simpa [Nat.add_comm] using h i (by omega)
    · intro h
      have h0 := h 0 (by omega)
      rw [if_neg (by rw [h0]; exact UInt8.lt_irrefl _),
        if_neg (by rw [h0]; exact UInt8.lt_irrefl _),
        ih]
      intro i hi
      simpa [Nat.add_comm] using h (i + 1) (by omega)

theorem nameMatches_iff (request : EXT2DriverRequest) (m : Mem) (o : Nat) :
    nameMatches request m o = true ↔ (recAt m o).name = requestName request := by
  unfold nameMatches requestName recAt
  dsimp only
  rw [bytes_eq_iff, Bool.and_eq_true, beq_iff_eq, beq_iff_eq, memcmp_eq_zero]
  simp

/-! ## The record loops -/

/-- A live record of the requested name. -/
def Rec.named (request : EXT2DriverRequest) (r : Rec) : Bool :=
  r.inode != 0 && r.name == requestName request

/-- A live record with a hole for the new record behind it. -/
def Rec.roomy (request : EXT2DriverRequest) (r : Rec) : Bool :=
  r.inode != 0 && decide (r.size + getEntryRecordLen request.nameLen ≤ r.recLen)

theorem named_iff {request : EXT2DriverRequest} {r : Rec} :
    r.named request = true ↔ r.inode ≠ 0 ∧ r.name = requestName request := by
  simp [Rec.named]

theorem roomy_iff {request : EXT2DriverRequest} {r : Rec} : r.roomy request = true ↔
    r.inode ≠ 0 ∧ r.size + getEntryRecordLen request.nameLen ≤ r.recLen := by
  simp [Rec.roomy]

section Loops

variable {request : EXT2DriverRequest} {m : Mem} {o : Nat} {rs : List Rec}

/-- What `write` makes of the record at which its pass stops. -/
def hitOf (request : EXT2DriverRequest) (r : Rec) : Scan :=
  if r.named request then .duplicate else .hole r.off

theorem named_recAt {m : Mem} {o : Nat} : (recAt m o).named request = true ↔
    entryInode m o ≠ 0 ∧ nameMatches request m o = true := by
  rw [named_iff, nameMatches_iff]
  rfl

/-- The record loop of `write` stops at the first record that has the name or room. -/
theorem scanBlock_eq (h : Tiles m o rs 512) : scanBlock request m o =
    match rs.find? fun r => r.named request || r.roomy request with
    | none => .done
    | some r => hitOf request r := by
  induction rs generalizing o with
  | nil =>
    obtain rfl : o = 512 := h
    unfold scanBlock
    rw [dif_neg (by omega)]
    rfl
  | cons r rs ih =>
    obtain ⟨h1, h2, h3, h4⟩ := h
    have hle := h4.le
    have hsz := size_le_entryRecLen r
    have hrl : entryRecLen m o = r.recLen := by rw [← h1]; rfl
    have hin : entryInode m o = r.inode := by rw [← h1]; rfl
    have hnl : entryNameLen m o = r.name.length := by rw [← h1]; exact (length_bytes _ _ _).symm
    have hoff : r.off = o := by rw [← h1]; rfl
    have hneed : 0 < getEntryRecordLen request.nameLen := by rw [getEntryRecordLen_eq]; omega
    have hact : getEntryRecordLen (UInt8.ofNat r.name.length) = r.size :=
      getEntryRecordLen_of_le h2
    unfold scanBlock
    rw [dif_pos (by omega), List.find?_cons]
    dsimp only
    by_cases hn : r.named request = true
    · have hn' : entryInode m o ≠ 0 ∧ nameMatches request m o = true := by
        rw [← named_recAt, h1]; exact hn
      rw [if_pos hn', hn, Bool.true_or]
      show Scan.duplicate = hitOf request r
      unfold hitOf
      rw [if_pos hn]
    · have hn' : ¬ (entryInode m o ≠ 0 ∧ nameMatches request m o = true) := by
        rw [← named_recAt, h1]; exact hn
      rw [if_neg hn', hnl, hact, hrl, hin]
      by_cases hr : r.roomy request = true
      · have hr' := roomy_iff.mp hr
        rw [if_pos ⟨hr'.1, by omega, by omega⟩, hr, Bool.or_true]
        show Scan.hole o = hitOf request r
        unfold hitOf
        rw [if_neg hn, hoff]
      · have hr' : ¬ (r.inode ≠ 0 ∧ r.recLen > r.size ∧
            r.recLen - r.size ≥ getEntryRecordLen request.nameLen) := fun hc =>
          hr (roomy_iff.mpr ⟨hc.1, by omega⟩)
        rw [if_neg hr', dif_neg (by omega), ih h4]
        simp only [Bool.not_eq_true] at hn hr
        rw [hn, hr]
        rfl

/-- The record loop of `read` stops at the first live record of the name. -/
theorem lookupBlock_eq (h : Tiles m o rs 512) : lookupBlock request m o =
    (rs.find? (Rec.named request)).map fun r => (r.inode, r.fileType) := by
  induction rs generalizing o with
  | nil =>
    obtain rfl : o = 512 := h
    unfold lookupBlock
    rw [dif_neg (by omega)]
    rfl
  | cons r rs ih =>
    obtain ⟨h1, h2, h3, h4⟩ := h
    have hle := h4.le
    have hsz := size_le_entryRecLen r
    have hrl : entryRecLen m o = r.recLen := by rw [← h1]; rfl
    have hres : (entryInode m o, entryFileType m o) = (r.inode, r.fileType) := by rw [← h1]; rfl
    unfold lookupBlock
    rw [dif_pos (by omega), List.find?_cons]
    by_cases hn : r.named request = true
    · have hn' : entryInode m o ≠ 0 ∧ nameMatches request m o = true := by
        rw [← named_recAt, h1]; exact hn
      rw [if_pos hn', hn, hres]
      rfl
    · have hn' : ¬ (entryInode m o ≠ 0 ∧ nameMatches request m o = true) := by
        rw [← named_recAt, h1]; exact hn
      rw [if_neg hn', hrl, dif_neg (by omega), ih h4]
      rw [Bool.not_eq_true] at hn
      rw [hn]

/-- The record loop of `delete`: the first live record of the name, and the record that
    lies before it. -/
theorem findEntry_eq (request : EXT2DriverRequest) (prev : Option Nat) (h : Tiles m o rs 512) :
    (findEntry request m prev o = none ∧ ∀ r ∈ rs, r.named request = false) ∨
    ∃ xs r ys, rs = xs ++ r :: ys ∧ r.named request = true ∧
      (∀ q ∈ xs, q.named request = false) ∧
      findEntry request m prev o = some (r.off, (xs.getLast?.map Rec.off).or prev) := by
  induction rs generalizing o prev with
  | nil =>
    obtain rfl : o = 512 := h
    left
    unfold findEntry
    rw [dif_neg (by omega)]
    exact ⟨rfl, by simp⟩
  | cons r rs ih =>
    obtain ⟨h1, h2, h3, h4⟩ := h
    have hle := h4.le
    have hsz := size_le_entryRecLen r
    have hrl : entryRecLen m o = r.recLen := by rw [← h1]; rfl
    have hoff : r.off = o := by rw [← h1]; rfl
    unfold findEntry
    rw [dif_pos (by omega), hrl, dif_neg (by omega)]
    by_cases hn : r.named request = true
    · have hn' : entryInode m o ≠ 0 ∧ nameMatches request m o = true := by
        rw [← named_recAt, h1]; exact hn
      right
      refine ⟨[], r, rs, rfl, hn, by simp, ?_⟩
      rw [if_pos hn', hoff]
      rfl
    · have hn' : ¬ (entryInode m o ≠ 0 ∧ nameMatches request m o = true) := by
        rw [← named_recAt, h1]; exact hn
      rw [if_neg hn']
      rw [Bool.not_eq_true] at hn
      rcases ih (some o) h4 with ⟨e, hall⟩ | ⟨xs, q, ys, rfl, hq, hxs, e⟩
      · left
        refine ⟨e, fun q hq => ?_⟩
        rcases List.mem_cons.mp hq with rfl | hq
        · exact hn
        · exact hall q hq
      · right
        refine ⟨r :: xs, q, ys, rfl, hq, fun p hp => ?_, ?_⟩
        · rcases List.mem_cons.mp hp with rfl | hp
          · exact hn
          · exact hxs p hp
        · rw [e, ← hoff]
          cases xs with
          | nil => rfl
          | cons x xs =>
            rw [List.getLast?_cons_cons]
            cases hl : (x :: xs).getLast? with
            | none => simp at hl
            | some z => rfl

end Loops

/-! ## Stores of records -/

/-- The stores with which `write` puts a record at offset `o`. -/
def putRec (m : Mem) (o inode nameLen : Nat) (fileType : UInt8) (recLen : Nat) (name : Mem) : Mem :=
  let m := wr32 m o inode
  let m := wr16 m (o + 6) nameLen
  let m := wr8 m (o + 8) fileType
  let m := wr16 m (o + 4) recLen
  blit m (o + 9) name nameLen

theorem putRec_of_not_mem {m name : Mem} {o inode nameLen recLen p : Nat} {ft : UInt8}
    (h : p < o ∨ o + 9 + nameLen ≤ p) : putRec m o inode nameLen ft recLen name p = m p := by
  unfold putRec
  rw [blit_of_not_mem (by omega), wr16_of_not_mem (by omega), wr8_of_ne (by omega),
    wr16_of_not_mem (by omega), wr32_of_not_mem (by omega)]

theorem recAt_putRec {m name : Mem} {o inode nameLen recLen : Nat} {ft : UInt8}
    (hi : inode < 4294967296) (hn : nameLen < 65536) (hl : recLen < 65536) :
    recAt (putRec m o inode nameLen ft recLen name) o =
      { off := o, inode := inode, recLen := recLen, name := bytes name 0 nameLen,
        fileType := ft.toNat } := by
  have hname : ∀ m' : Mem, entryNameLen (blit m' (o + 9) name nameLen) o = entryNameLen m' o :=
    fun m' => rd16_congr fun p _ hp => blit_of_not_mem (by omega)
  have hlen : entryNameLen (putRec m o inode nameLen ft recLen name) o = nameLen := by
    unfold putRec
    rw [hname]
    unfold entryNameLen
    rw [rd16_wr16_of_ne (by omega), rd16_wr8 (by omega), rd16_wr16_of_lt hn]
  unfold recAt
  rw [hlen]
  congr 1
  · unfold entryInode putRec
    rw [rd32_congr fun p _ hp => blit_of_not_mem (by omega), rd32_wr16 (by omega),
      rd32_wr8 (by omega), rd32_wr16 (by omega), rd32_wr32_of_lt hi]
  · unfold entryRecLen putRec
    rw [rd16_congr fun p _ hp => blit_of_not_mem (by omega), rd16_wr16_of_lt hl]
  · rw [bytes_eq_iff]
    refine ⟨rfl, fun i hi => ?_⟩
    unfold putRec
    rw [blit_of_mem (by omega) (by omega), Nat.add_sub_cancel_left, Nat.zero_add]
  · unfold entryFileType putRec
    rw [blit_of_not_mem (by omega), wr16_of_not_mem (by omega), wr8_same]

theorem recAt_wr16_recLen {m : Mem} {o v : Nat} (hv : v < 65536) :
    recAt (wr16 m (o + 4) v) o = { recAt m o with recLen := v } := by
  have hlen : entryNameLen (wr16 m (o + 4) v) o = entryNameLen m o :=
    rd16_wr16_of_ne (by omega)
  unfold recAt
  rw [hlen]
  congr 1
  · exact rd32_wr16 (by omega)
  · exact rd16_wr16_of_lt hv
  · exact bytes_congr fun p h1 _ => wr16_of_not_mem (by omega)
  · unfold entryFileType
    rw [wr16_of_not_mem (by omega)]

theorem recAt_wr32_inode {m : Mem} {o v : Nat} (hv : v < 4294967296) :
    recAt (wr32 m o v) o = { recAt m o with inode := v } := by
  have hlen : entryNameLen (wr32 m o v) o = entryNameLen m o := rd16_wr32 (by omega)
  unfold recAt
  rw [hlen]
  congr 1
  · exact rd32_wr32_of_lt hv
  · exact rd16_wr32 (by omega)
  · exact bytes_congr fun p h1 _ => wr32_of_not_mem (by omega)
  · unfold entryFileType
    rw [wr32_of_not_mem (by omega)]

/-! ## The edits of `write` and `delete` -/

/-- The record that `write` puts into a directory. -/
def newRec (request : EXT2DriverRequest) (newIno off recLen : Nat) : Rec where
  off := off
  inode := newIno
  recLen := recLen
  name := requestName request
  fileType := (requestFileType request).toNat

section Edits

variable {request : EXT2DriverRequest} {m : Mem} {xs ys : List Rec} {q r : Rec} {newIno : Nat}

theorem newRec_size (off recLen : Nat) :
    (newRec request newIno off recLen).size = getEntryRecordLen request.nameLen := by
  unfold Rec.size newRec
  rw [length_requestName, getEntryRecordLen_eq]

theorem length_newRec (off recLen : Nat) :
    (newRec request newIno off recLen).name.length ≤ 255 := by
  have := request.nameLen.toNat_lt
  unfold newRec
  rw [length_requestName]; omega

/-- The insertion splits the record at `r.off`: it keeps its own size, the new record gets
    the hole behind it. -/
theorem insertEntry_tiles (h : Tiles m 0 (xs ++ r :: ys) 512)
    (hroom : r.size + getEntryRecordLen request.nameLen ≤ r.recLen) (hn : newIno < 4294967296) :
    Tiles (insertEntry request newIno r.off m) 0
      (xs ++ { r with recLen := r.size } ::
        newRec request newIno (r.off + r.size) (r.recLen - r.size) :: ys) 512 := by
  obtain ⟨t1, h1, h2, h3, t2⟩ := h.split
  have hle := t2.le
  have hsz := size_le_entryRecLen r
  have hname := request.nameLen.toNat_lt
  have hneed := getEntryRecordLen_eq request.nameLen
  have hnl : entryNameLen m r.off = r.name.length := by rw [← h1]; exact (length_bytes _ _ _).symm
  have hrl : entryRecLen m r.off = r.recLen := by rw [← h1]; rfl
  have hact : getEntryRecordLen (UInt8.ofNat (entryNameLen m r.off)) = r.size := by
    rw [hnl]; exact getEntryRecordLen_of_le h2
  have hm : insertEntry request newIno r.off m =
      wr16 (putRec m (r.off + r.size) newIno request.nameLen.toNat (requestFileType request)
        (r.recLen - r.size) request.name) (r.off + 4) r.size := by
    unfold insertEntry
    rw [hact, hrl]
    rfl
  have hfar : ∀ p, p < r.off + 4 ∨ r.off + 6 ≤ p →
      p < r.off + r.size ∨ r.off + r.size + 9 + request.nameLen.toNat ≤ p →
      insertEntry request newIno r.off m p = m p := by
    intro p hp1 hp2
    rw [hm, wr16_of_not_mem (by omega), putRec_of_not_mem (by omega)]
  rw [tiles_append]
  refine ⟨r.off, t1.congr fun p _ hp => hfar p (by omega) (by omega), ?_, h2, le_rfl, ?_⟩
  · rw [hm, recAt_wr16_recLen (by omega), recAt_congr, h1]
    intro p hp1 hp2
    exact putRec_of_not_mem (by omega)
  · refine ⟨?_, length_newRec _ _, ?_, ?_⟩
    · have hrec : recAt (wr16 (putRec m (r.off + r.size) newIno request.nameLen.toNat
          (requestFileType request) (r.recLen - r.size) request.name) (r.off + 4) r.size)
          (r.off + r.size) = recAt (putRec m (r.off + r.size) newIno request.nameLen.toNat
          (requestFileType request) (r.recLen - r.size) request.name) (r.off + r.size) :=
        recAt_congr fun p hp1 _ => wr16_of_not_mem (by omega)
      rw [hm, hrec, recAt_putRec hn (by omega) (by omega)]
      rfl
    · rw [newRec_size]
      show _ ≤ r.recLen - r.size
      omega
    · show Tiles _ (r.off + r.size + (r.recLen - r.size)) ys 512
      rw [show r.off + r.size + (r.recLen - r.size) = r.off + r.recLen by omega]
      exact t2.congr fun p hp _ => hfar p (by omega) (by omega)

/-- An appended block holds the new record and nothing else. -/
theorem singleEntry_tiles (hn : newIno < 4294967296) :
    Tiles (singleEntry request newIno m) 0 [newRec request newIno 0 512] 512 := by
  have hname := request.nameLen.toNat_lt
  have hneed := getEntryRecordLen_eq request.nameLen
  refine ⟨?_, length_newRec _ _, ?_, rfl⟩
  · exact recAt_putRec (o := 0) hn (by omega) (by omega)
  · rw [newRec_size]
    show _ ≤ 512
    omega

/-- Removing a record that has one before it: that one takes over its bytes. -/
theorem removeEntry_tiles_some (h : Tiles m 0 (xs ++ q :: r :: ys) 512) :
    Tiles (removeEntry (some q.off) r.off m) 0
      (xs ++ { q with recLen := q.recLen + r.recLen } :: ys) 512 := by
  obtain ⟨t1, h1, h2, h3, h4, h5, h6, t2⟩ := h.split
  have hle := t2.le
  have hsq := size_le_entryRecLen q
  have hsr := size_le_entryRecLen r
  have hoff : r.off = q.off + q.recLen := by rw [← h4]; rfl
  rw [← hoff] at h4 t2 hle
  have hnl : entryNameLen m r.off = r.name.length := by rw [← h4]; exact (length_bytes _ _ _).symm
  have hrq : entryRecLen m q.off = q.recLen := by rw [← h1]; rfl
  have hrr : entryRecLen m r.off = r.recLen := by rw [← h4]; rfl
  have hfar : ∀ p, p < r.off ∨ r.off + r.recLen ≤ p →
      removeEntry (some q.off) r.off m p = wr16 m (q.off + 4) (q.recLen + r.recLen) p := by
    intro p hp
    unfold removeEntry
    dsimp only
    rw [hnl, hrq, hrr, wr16_of_not_mem (by omega), wr8_of_ne (by omega),
      fill_of_not_mem (by omega), wr16_of_not_mem (by omega), wr32_of_not_mem (by omega)]
  rw [tiles_append]
  refine ⟨q.off, t1.congr fun p _ hp => ?_, ?_, h2, ?_, ?_⟩
  · rw [hfar p (by omega), wr16_of_not_mem (by omega)]
  · have hlen : entryNameLen (wr16 m (q.off + 4) (q.recLen + r.recLen)) q.off = q.name.length := by
      rw [← h1]
      exact (rd16_wr16_of_ne (by omega)).trans (length_bytes _ _ _).symm
    rw [recAt_congr (m := wr16 m (q.off + 4) (q.recLen + r.recLen)) fun p hp1 hp2 =>
      hfar p (by omega), recAt_wr16_recLen (by omega), h1]
  · show q.size ≤ q.recLen + r.recLen
    omega
  · show Tiles _ (q.off + (q.recLen + r.recLen)) ys 512
    rw [show q.off + (q.recLen + r.recLen) = r.off + r.recLen by omega]
    apply t2.congr
    intro p hp _
    rw [hfar p (by omega), wr16_of_not_mem (by omega)]

/-- Removing the first record of a block leaves it as a record without inode. -/
theorem removeEntry_tiles_none (h : Tiles m 0 (r :: ys) 512) :
    Tiles (removeEntry none r.off m) 0 ({ r with inode := 0 } :: ys) 512 := by
  obtain ⟨h1, h2, h3, t2⟩ := h
  have hsz := size_le_entryRecLen r
  have hoff : r.off = 0 := by rw [← h1]; rfl
  refine ⟨?_, h2, h3, t2.congr fun p hp _ => ?_⟩
  · show recAt (wr32 m r.off 0) 0 = _
    rw [hoff, recAt_wr32_inode (by decide), h1, ← hoff]
  · show wr32 m r.off 0 p = m p
    exact wr32_of_not_mem (by omega)

end Edits

theorem entryRecLen_putRec {m name : Mem} {o inode nameLen recLen : Nat} {ft : UInt8}
    (hl : recLen < 65536) : entryRecLen (putRec m o inode nameLen ft recLen name) o = recLen := by
  unfold entryRecLen putRec
  rw [rd16_congr fun p _ hp => blit_of_not_mem (by omega), rd16_wr16_of_lt hl]

/-- The two records of a new directory, as stores of records. -/
theorem dirTable_eq (inode parent : Nat) (m : Mem) : dirTable inode parent m =
    putRec (putRec m 0 inode 1 2 12 fun _ => 46) 12 parent 2 2 500 fun _ => 46 := by
  have hone : ∀ m' : Mem, wr8 m' 9 46 = blit m' 9 (fun _ => 46) 1 := fun m' => by
    funext p
    unfold wr8 blit
    by_cases h : p = 9
    · rw [if_pos h, if_pos (by omega)]
    · rw [if_neg h, if_neg (by omega)]
  have htwo : ∀ m' : Mem, wr8 (wr8 m' 21 46) 22 46 = blit m' 21 (fun _ => 46) 2 := fun m' => by
    funext p
    unfold wr8 blit
    by_cases h2 : p = 22
    · rw [if_pos h2, if_pos (by omega)]
    · rw [if_neg h2]
      by_cases h1 : p = 21
      · rw [if_pos h1, if_pos (by omega)]
      · rw [if_neg h1, if_neg (by omega)]
  have hfst : wr8 (wr16 (wr8 (wr16 (wr32 m 0 inode) 6 1) 8 2) 4 (getEntryRecordLen 1)) 9 46 =
      putRec m 0 inode 1 2 12 fun _ => 46 := hone _
  have hkeep : ∀ m' : Mem, entryRecLen (wr8 (wr16 (wr32 m' 12 parent) 18 2) 20 2) 0 =
      entryRecLen m' 0 := fun m' => by
    unfold entryRecLen
    rw [rd16_wr8 (by omega), rd16_wr16_of_ne (by omega), rd16_wr32 (by omega)]
  unfold dirTable
  dsimp only
  rw [hfst, entryRecLen_putRec (by decide), hkeep, entryRecLen_putRec (by decide)]
  exact htwo _

/-- The first block of a directory: `.` and `..`. -/
theorem dirTable_tiles {m : Mem} {inode parent : Nat} (hi : inode < 4294967296)
    (hp : parent < 4294967296) : Tiles (dirTable inode parent m) 0
      [⟨0, inode, 12, [46], 2⟩, ⟨12, parent, 500, [46, 46], 2⟩] 512 := by
  have hfst : recAt (putRec m 0 inode 1 2 12 fun _ => 46) 0 = ⟨0, inode, 12, [46], 2⟩ :=
    recAt_putRec hi (by decide) (by decide)
  have hnl : entryNameLen (putRec m 0 inode 1 2 12 fun _ => 46) 0 = 1 :=
    (length_bytes _ _ _).symm.trans (congrArg (fun r => r.name.length) hfst)
  rw [dirTable_eq]
  refine ⟨?_, (by decide : 1 ≤ 255), by simp [Rec.size], ?_, (by decide : 2 ≤ 255),
    by simp [Rec.size], rfl⟩
  · rw [← hfst]
    exact recAt_congr fun p _ hp => putRec_of_not_mem (by omega)
  · exact recAt_putRec (o := 12) hp (by decide) (by decide)

/-! ## Live entries -/

/-- What a directory says about a name. -/
structure Entry where
  name : List UInt8
  inode : Nat
  fileType : Nat
  deriving DecidableEq, Repr

def Rec.entry (r : Rec) : Entry := ⟨r.name, r.inode, r.fileType⟩

/-- The entries of the live records. -/
def live (rs : List Rec) : List Entry := (rs.filter fun r => r.inode ≠ 0).map Rec.entry

theorem live_append (xs ys : List Rec) : live (xs ++ ys) = live xs ++ live ys := by
  unfold live
  rw [List.filter_append, List.map_append]

theorem live_cons_of_ne {r : Rec} (h : r.inode ≠ 0) (rs : List Rec) :
    live (r :: rs) = r.entry :: live rs := by
  unfold live
  rw [List.filter_cons_of_pos (by simpa using h), List.map_cons]

theorem live_cons_of_eq {r : Rec} (h : r.inode = 0) (rs : List Rec) : live (r :: rs) = live rs := by
  unfold live
  rw [List.filter_cons_of_neg (by simpa using h)]

theorem mem_live {rs : List Rec} {e : Entry} :
    e ∈ live rs ↔ ∃ r ∈ rs, r.inode ≠ 0 ∧ r.entry = e := by
  simp [live, and_assoc]

/-- The length of a record does not show in its entry. -/
theorem live_recLen (r : Rec) (n : Nat) (rs : List Rec) :
    live ({ r with recLen := n } :: rs) = live (r :: rs) := by
  by_cases h : r.inode = 0
  · rw [live_cons_of_eq h]
    exact live_cons_of_eq (r := { r with recLen := n }) h rs
  · rw [live_cons_of_ne h]
    exact live_cons_of_ne (r := { r with recLen := n }) h rs

/-- Record lengths are multiples of 4. -/
def Aligned (rs : List Rec) : Prop := ∀ r ∈ rs, 4 ∣ r.recLen

theorem dvd_size (r : Rec) : 4 ∣ r.size := Dvd.intro_left _ rfl

end LossOs.Ext2
