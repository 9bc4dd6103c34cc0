/-
  `drivers/disk.c`: blocks of an ATA drive, through its ports.

  The drive is a parameter. `IsAta` says what is relied on: a view of it (`Drive`: its sectors, the
  registers of a command, and the transfer that is under way) that the ports act on, and a number
  of status reads after which it is no longer busy. `disk_driver_refines`: a run of `read_blocks`
  and `write_blocks` comes to an end however long the drive takes, and answers as an array of
  blocks does; of one block these are the answers of the file system's `read_blocks` and
  `write_blocks`.
-/
import LossOs.Lib.Fuel
import LossOs.Ext2.Driver

namespace LossOs.Drivers

open LossOs.Lib
open LossOs.Ext2 (Disk Block blockOf Fs)

/-! ## Ports -/

/-- What answers to `in`, `out`, `in16` and `out16`. -/
structure Ports (σ : Type*) where
  in8 : UInt16 → σ → UInt8 × σ
  out8 : UInt16 → UInt8 → σ → σ
  in16 : UInt16 → σ → UInt16 × σ
  out16 : UInt16 → UInt16 → σ → σ

def ATA_STATUS_BSY : UInt8 := 0x80
def ATA_STATUS_RDY : UInt8 := 0x40

section Driver

variable {σ : Type*} (dev : Ports σ)

/-- `ATA_busy_wait`. -/
def ataBusyWait : Nat → σ → Option σ :=
  poll fun s => ((dev.in8 0x1F7 s).1 &&& ATA_STATUS_BSY == 0, (dev.in8 0x1F7 s).2)

/-- `ATA_DRQ_wait`. -/
def ataDrqWait : Nat → σ → Option σ :=
  poll fun s => (!((dev.in8 0x1F7 s).1 &&& ATA_STATUS_RDY == 0), (dev.in8 0x1F7 s).2)

/-- The registers, and then the command. -/
def ataCommand (command : UInt8) (lba : UInt32) (blockCount : UInt8) (s : σ) : σ :=
  let s := dev.out8 0x1F6 ((0xE0 : UInt8) ||| ((lba >>> 24) &&& 0xF).toUInt8) s
  let s := dev.out8 0x1F2 blockCount s
  let s := dev.out8 0x1F3 lba.toUInt8 s
  let s := dev.out8 0x1F4 (lba >>> 8).toUInt8 s
  let s := dev.out8 0x1F5 (lba >>> 16).toUInt8 s
  dev.out8 0x1F7 command s

/-- `target[j] = in16(0x1F0)` for the words of a sector, from `target` on. -/
def readSector (target : Nat) (r : Mem × σ) : Mem × σ :=
  (upTo 0 256).foldl (fun r j => (wr16 r.1 (target + 2 * j) (dev.in16 0x1F0 r.2).1.toNat,
    (dev.in16 0x1F0 r.2).2)) r

/-- `out16(0x1F0, ptr[j])` for the words of a sector, from `source` on. -/
def writeSector (source : Nat) (ptr : Mem) (s : σ) : σ :=
  (upTo 0 256).foldl (fun s j => dev.out16 0x1F0 (UInt16.ofNat (rd16 ptr (source + 2 * j))) s) s

/-- `read_blocks`. -/
def readBlocks (ptr : Mem) (lba : UInt32) (blockCount : UInt8) (fuel : Nat) (s : σ) :
    Option (Mem × σ) :=
  (ataBusyWait dev fuel s).bind fun s =>
    loop (upTo 0 blockCount.toNat) (fun i r =>
      (ataBusyWait dev fuel r.2).bind fun s =>
        (ataDrqWait dev fuel s).bind fun s => some (readSector dev (512 * i) (r.1, s)))
      (ptr, ataCommand dev 0x20 lba blockCount s)

/-- `write_blocks`. -/
def writeBlocks (ptr : Mem) (lba : UInt32) (blockCount : UInt8) (fuel : Nat) (s : σ) : Option σ :=
  (ataBusyWait dev fuel s).bind fun s =>
    loop (upTo 0 blockCount.toNat) (fun i s =>
      (ataBusyWait dev fuel s).bind fun s =>
        (ataDrqWait dev fuel s).bind fun s => some (writeSector dev (512 * i) ptr s))
      (ataCommand dev 0x30 lba blockCount s)

end Driver

/-! ## The drive -/

/-- The sector that goes in or out, how many are left with it, and its words so far. -/
inductive Transfer where
  | idle
  | dataIn (lba left word : Nat)
  | dataOut (lba left word : Nat) (buf : Mem)

structure Drive where
  disk : Disk
  count : UInt8
  lbaLow : UInt8
  lbaMid : UInt8
  lbaHigh : UInt8
  device : UInt8
  transfer : Transfer

namespace Drive

/-- A register of the command block. -/
def set (port : UInt16) (data : UInt8) (d : Drive) : Drive :=
  if port = 0x1F2 then { d with count := data }
  else if port = 0x1F3 then { d with lbaLow := data }
  else if port = 0x1F4 then { d with lbaMid := data }
  else if port = 0x1F5 then { d with lbaHigh := data }
  else if port = 0x1F6 then { d with device := data }
  else d

/-- The sector of the registers. -/
def lba (d : Drive) : Nat :=
  d.lbaLow.toNat + 256 * d.lbaMid.toNat + 65536 * d.lbaHigh.toNat + 16777216 * (d.device.toNat % 16)

/-- The number of sectors; 0 stands for 256. -/
def sectors (d : Drive) : Nat := if d.count = 0 then 256 else d.count.toNat

/-- READ SECTORS and WRITE SECTORS. -/
def start (command : UInt8) (d : Drive) : Drive :=
  if command = 0x20 then { d with transfer := .dataIn d.lba d.sectors 0 }
  else { d with transfer := .dataOut d.lba d.sectors 0 fun _ => 0 }

/-- After the last word of sector `lba`. -/
def nextIn (lba left : Nat) : Transfer := if left ≤ 1 then .idle else .dataIn (lba + 1) (left - 1) 0

def nextOut (lba left : Nat) : Transfer :=
  if left ≤ 1 then .idle else .dataOut (lba + 1) (left - 1) 0 fun _ => 0

/-- After `k` words of sector `lba` have come in. -/
def inAt (lba left k : Nat) (d : Drive) : Drive :=
  { d with transfer := if k < 256 then Transfer.dataIn lba left k else nextIn lba left }

/-- After `k` words have gone out to `buf`; the sector is written with its last one. -/
def outAt (lba left k : Nat) (buf : Mem) (d : Drive) : Drive :=
  if k < 256 then { d with transfer := .dataOut lba left k buf } else
    { d with disk := Function.update d.disk lba (blockOf buf), transfer := nextOut lba left }

/-- A word of the data register comes in. -/
def take (d : Drive) : UInt16 × Drive :=
  match d.transfer with
  | .dataIn lba left word =>
    (UInt16.ofNat (rd16 (d.disk lba).mem (2 * word)), d.inAt lba left (word + 1))
  | _ => (0, d)

/-- A word goes out. -/
def put (data : UInt16) (d : Drive) : Drive :=
  match d.transfer with
  | .dataOut lba left word buf => d.outAt lba left (word + 1) (wr16 buf (2 * word) data.toNat)
  | _ => d

/-- The words of the sector that is under way, if some are left after the next one. -/
def within (d : Drive) : Bool :=
  match d.transfer with
  | .dataIn _ _ word => word + 1 < 256
  | .dataOut _ _ word _ => word + 1 < 256
  | .idle => false

end Drive

/-- A drive of `capacity` sectors that may be busy after a command and between sectors. `drive` is
    what it is doing, and `busy` bounds how often its status says so. -/
structure IsAta {σ : Type*} (dev : Ports σ) (capacity : Nat) (drive : σ → Drive) (busy : σ → Nat) :
    Prop where
  status : ∀ s, drive (dev.in8 0x1F7 s).2 = drive s
  waiting : ∀ s, busy s ≠ 0 → (dev.in8 0x1F7 s).1 &&& ATA_STATUS_BSY ≠ 0 ∧
    busy (dev.in8 0x1F7 s).2 < busy s
  ready : ∀ s, busy s = 0 → (dev.in8 0x1F7 s).1 &&& ATA_STATUS_BSY = 0 ∧
    (dev.in8 0x1F7 s).1 &&& ATA_STATUS_RDY ≠ 0 ∧ busy (dev.in8 0x1F7 s).2 = 0
  register : ∀ s port data, busy s = 0 → (drive s).transfer = .idle → 0x1F2 ≤ port →
    port ≤ 0x1F6 → drive (dev.out8 port data s) = (drive s).set port data ∧
      busy (dev.out8 port data s) = 0
  command : ∀ s c, busy s = 0 → (drive s).transfer = .idle → c = 0x20 ∨ c = 0x30 →
    (drive s).device &&& 0x40 ≠ 0 → (drive s).lba + (drive s).sectors ≤ capacity →
    drive (dev.out8 0x1F7 c s) = (drive s).start c
  dataIn : ∀ s lba left word, busy s = 0 → (drive s).transfer = .dataIn lba left word →
    (dev.in16 0x1F0 s).1 = (drive s).take.1 ∧ drive (dev.in16 0x1F0 s).2 = (drive s).take.2 ∧
      ((drive s).within = true → busy (dev.in16 0x1F0 s).2 = 0)
  dataOut : ∀ s data lba left word buf, busy s = 0 →
    (drive s).transfer = .dataOut lba left word buf →
    drive (dev.out16 0x1F0 data s) = (drive s).put data ∧
      ((drive s).within = true → busy (dev.out16 0x1F0 data s) = 0)

/-! ## Blocks -/

/-- `n` blocks from `lba` on, over what was in the buffer. -/
def loadBlocks (disk : Disk) (lba n : Nat) (ptr : Mem) : Mem := fun p =>
  if p < 512 * n then (disk (lba + p / 512)).mem (p % 512) else ptr p

/-- `n` blocks from `lba` on are those of the buffer. -/
def storeBlocks (disk : Disk) (lba n : Nat) (ptr : Mem) : Disk := fun b =>
  if lba ≤ b ∧ b < lba + n then blockOf (view ptr (512 * (b - lba))) else disk b

section Blocks

variable {disk : Disk} {lba n : Nat} {ptr src : Mem}

/-- The next word behind what has been copied. -/
theorem wr16_blit (m src : Mem) (o k : Nat) :
    wr16 (blit m o src (2 * k)) (o + 2 * k) (rd16 src (2 * k)) = blit m o src (2 * (k + 1)) := by
  have h0 := (src (2 * k)).toNat_lt
  have h1 := (src (2 * k + 1)).toNat_lt
  funext p
  unfold wr16 rd16
  by_cases hp : p = o + 2 * k
  · subst hp
    rw [if_pos rfl, blit_of_mem (by omega) (by omega), Nat.add_sub_cancel_left]
    refine UInt8.toNat_inj.mp ?_
    rw [UInt8.toNat_ofNat']
    omega
  rw [if_neg hp]
  by_cases hp' : p = o + 2 * k + 1
  · subst hp'
    rw [if_pos rfl, blit_of_mem (by omega) (by omega),
      show o + 2 * k + 1 - o = 2 * k + 1 by omega]
    refine UInt8.toNat_inj.mp ?_
    rw [UInt8.toNat_ofNat']
    omega
  rw [if_neg hp']
  unfold blit
  by_cases hin : o ≤ p ∧ p < o + 2 * k
  · rw [if_pos hin, if_pos ⟨hin.1, by omega⟩]
  · rw [if_neg hin, if_neg (by omega)]

theorem blit_zero (m src : Mem) (o : Nat) : blit m o src 0 = m :=
  funext fun p => if_neg fun h => by omega

theorem rd16_lt (m : Mem) (o : Nat) : rd16 m o < 65536 := by
  have h0 := (m o).toNat_lt
  have h1 := (m (o + 1)).toNat_lt
  unfold rd16
  omega

/-- One block more. -/
theorem loadBlocks_succ : blit (loadBlocks disk lba n ptr) (512 * n) (disk (lba + n)).mem 512 =
    loadBlocks disk lba (n + 1) ptr := by
  funext p
  unfold loadBlocks blit
  by_cases hp : 512 * n ≤ p ∧ p < 512 * n + 512
  · rw [if_pos hp, if_pos (by omega), show p / 512 = n by omega,
      show p % 512 = p - 512 * n by omega]
  · rw [if_neg hp]
    dsimp only
    by_cases hlt : p < 512 * n
    · rw [if_pos hlt, if_pos (by omega)]
    · rw [if_neg hlt, if_neg (by omega)]

theorem storeBlocks_succ : Function.update (storeBlocks disk lba n ptr) (lba + n)
    (blockOf (view ptr (512 * n))) = storeBlocks disk lba (n + 1) ptr := by
  funext b
  unfold storeBlocks
  by_cases hb : b = lba + n
  · subst hb
    rw [Function.update_self, if_pos ⟨Nat.le_add_right .., by omega⟩, Nat.add_sub_cancel_left]
  · rw [Function.update_of_ne hb]
    by_cases hin : lba ≤ b ∧ b < lba + n
    · rw [if_pos hin, if_pos ⟨hin.1, by omega⟩]
    · rw [if_neg hin, if_neg (by omega)]

/-- The file system's own `read_blocks` and `write_blocks` are those of one block. -/
theorem loadBlocks_one (fs : Fs) (lba : Nat) :
    loadBlocks fs.disk lba 1 fs.stack = fs.readBlocks lba := by
  funext p
  unfold loadBlocks Fs.readBlocks
  by_cases hp : p < 512
  · rw [if_pos (by omega), dif_pos hp, Nat.div_eq_of_lt hp, Nat.mod_eq_of_lt hp]
    exact dif_pos hp
  · rw [if_neg (by omega), dif_neg hp]

theorem storeBlocks_one (fs : Fs) (lba : Nat) (buf : Mem) :
    storeBlocks fs.disk lba 1 buf = (fs.writeBlocks lba buf).disk := by
  have h : _ = storeBlocks fs.disk lba 1 buf := storeBlocks_succ
  rw [show storeBlocks fs.disk lba 0 buf = fs.disk from
    funext fun b => if_neg fun h => by omega] at h
  rw [← h]
  unfold Fs.writeBlocks
  rw [show view buf (512 * 0) = buf from funext fun o => congrArg buf (by omega)]
  rfl

end Blocks

/-! ## Waiting and commands -/

section Transfers

variable {σ : Type*} {dev : Ports σ} {capacity : Nat} {drive : σ → Drive} {busy : σ → Nat}
  {s : σ} {lba : UInt32} {blockCount : UInt8}

theorem busyWait_ends (h : IsAta dev capacity drive busy) (s : σ) :
    Ends (fun n => ataBusyWait dev n s) fun s' => drive s' = drive s ∧ busy s' = 0 := by
  refine ends_poll (I := fun s' => drive s' = drive s) busy (fun s' hs hyes => ?_)
    (fun s' hs hno => ?_) rfl
  · have h0 : busy s' = 0 := by
      by_contra hne
      exact (h.waiting s' hne).1 (eq_of_beq hyes)
    exact ⟨(h.status s').trans hs, (h.ready s' h0).2.2⟩
  · have hne : busy s' ≠ 0 := fun h0 => by
      rw [(h.ready s' h0).1] at hno
      cases hno
    exact ⟨(h.status s').trans hs, (h.waiting s' hne).2⟩

theorem drqWait_ends (h : IsAta dev capacity drive busy) (h0 : busy s = 0) :
    Ends (fun n => ataDrqWait dev n s) fun s' => drive s' = drive s ∧ busy s' = 0 := by
  refine ends_poll (I := fun s' => drive s' = drive s ∧ busy s' = 0) busy (fun s' hs _ => ?_)
    (fun s' hs hno => ?_) ⟨rfl, h0⟩
  · exact ⟨(h.status s').trans hs.1, (h.ready s' hs.2).2.2⟩
  · have hrdy := (h.ready s' hs.2).2.1
    rw [Bool.not_eq_false'] at hno
    exact absurd (eq_of_beq hno) hrdy

/-- The drive/head register: LBA mode, and four bits of the address. -/
theorem device_bits : ∀ n < 16, ((0xE0 : UInt8) ||| UInt8.ofNat n).toNat % 16 = n ∧
    ((0xE0 : UInt8) ||| UInt8.ofNat n) &&& 0x40 ≠ 0 := by decide

theorem high_bits (lba : UInt32) : ((lba >>> 24) &&& 0xF).toUInt8 =
    UInt8.ofNat (lba.toNat / 16777216 % 16) := by
  refine UInt8.toNat_inj.mp ?_
  have hand : lba.toNat >>> 24 &&& 15 = lba.toNat / 16777216 % 16 := by
    rw [Nat.shiftRight_eq_div_pow]
    exact Nat.and_two_pow_sub_one_eq_mod _ 4
  rw [UInt32.toNat_toUInt8, UInt32.toNat_and, UInt32.toNat_shiftRight, UInt8.toNat_ofNat']
  exact congrArg (· % 256) hand

theorem byte_bits (lba : UInt32) : (lba >>> 8).toUInt8.toNat = lba.toNat / 256 % 256 ∧
    (lba >>> 16).toUInt8.toNat = lba.toNat / 65536 % 256 := by
  refine ⟨?_, ?_⟩ <;> rw [UInt32.toNat_toUInt8, UInt32.toNat_shiftRight]
  · exact congrArg (· % 256) (Nat.shiftRight_eq_div_pow lba.toNat 8)
  · exact congrArg (· % 256) (Nat.shiftRight_eq_div_pow lba.toNat 16)

/-- The registers of a command take the low 28 bits of the address. -/
theorem ataCommand_drive (h : IsAta dev capacity drive busy) {c : UInt8} (hc : c = 0x20 ∨ c = 0x30)
    (hidle : (drive s).transfer = .idle) (h0 : busy s = 0) (hcount : blockCount ≠ 0)
    (hfits : lba.toNat % 268435456 + blockCount.toNat ≤ capacity) :
    ∃ d : Drive, d.disk = (drive s).disk ∧ d.lba = lba.toNat % 268435456 ∧
      d.sectors = blockCount.toNat ∧ drive (ataCommand dev c lba blockCount s) = d.start c := by
  unfold ataCommand
  dsimp only
  rw [high_bits]
  have hhigh : lba.toNat / 16777216 % 16 < 16 := Nat.mod_lt _ (by decide)
  obtain ⟨hdev, hmode⟩ := device_bits _ hhigh
  -- one register after the other
  obtain ⟨hd₁, hb₁⟩ := h.register s 0x1F6 (0xE0 ||| UInt8.ofNat (lba.toNat / 16777216 % 16)) h0
    hidle (by decide) (by decide)
  generalize dev.out8 0x1F6 _ s = s₁ at hd₁ hb₁ ⊢
  obtain ⟨hd₂, hb₂⟩ := h.register s₁ 0x1F2 blockCount hb₁ (by rw [hd₁]; exact hidle) (by decide)
    (by decide)
  generalize dev.out8 0x1F2 _ s₁ = s₂ at hd₂ hb₂ ⊢
  obtain ⟨hd₃, hb₃⟩ := h.register s₂ 0x1F3 lba.toUInt8 hb₂ (by rw [hd₂, hd₁]; exact hidle)
    (by decide) (by decide)
  generalize dev.out8 0x1F3 _ s₂ = s₃ at hd₃ hb₃ ⊢
  obtain ⟨hd₄, hb₄⟩ := h.register s₃ 0x1F4 (lba >>> 8).toUInt8 hb₃
    (by rw [hd₃, hd₂, hd₁]; exact hidle) (by decide) (by decide)
  generalize dev.out8 0x1F4 _ s₃ = s₄ at hd₄ hb₄ ⊢
  obtain ⟨hd₅, hb₅⟩ := h.register s₄ 0x1F5 (lba >>> 16).toUInt8 hb₄
    (by rw [hd₄, hd₃, hd₂, hd₁]; exact hidle) (by decide) (by decide)
  generalize dev.out8 0x1F5 _ s₄ = s₅ at hd₅ hb₅ ⊢
  rw [hd₄, hd₃, hd₂, hd₁] at hd₅
  obtain ⟨hmid, hhi⟩ := byte_bits lba
  have hlba : (drive s₅).lba = lba.toNat % 268435456 := by
    have hlow : lba.toUInt8.toNat = lba.toNat % 256 := UInt32.toNat_toUInt8 lba
    rw [hd₅]
    show lba.toUInt8.toNat + 256 * (lba >>> 8).toUInt8.toNat + 65536 * (lba >>> 16).toUInt8.toNat +
      16777216 * (((0xE0 : UInt8) ||| UInt8.ofNat (lba.toNat / 16777216 % 16)).toNat % 16) = _
    rw [hdev, hlow, hmid, hhi]
    omega
  have hsectors : (drive s₅).sectors = blockCount.toNat := by
    rw [hd₅]
    exact if_neg hcount
  refine ⟨drive s₅, by rw [hd₅]; rfl, hlba, hsectors, h.command s₅ c hb₅ (by rw [hd₅]; exact hidle)
    hc (by rw [hd₅]; exact hmode) (by rw [hlba, hsectors]; exact hfits)⟩

/-! ## Sectors -/

/-- The words that have come in: each is in the buffer. -/
theorem readSector_drive (h : IsAta dev capacity drive busy) {d : Drive} {lba left : Nat}
    (target : Nat) (ptr : Mem) (hd : drive s = d.inAt lba left 0) (h0 : busy s = 0) :
    (readSector dev target (ptr, s)).1 = blit ptr target (d.disk lba).mem 512 ∧
      drive (readSector dev target (ptr, s)).2 = d.inAt lba left 256 := by
  have hwords : ∀ k ≤ 256, ∃ r, (upTo 0 k).foldl (fun r j =>
        (wr16 r.1 (target + 2 * j) (dev.in16 0x1F0 r.2).1.toNat, (dev.in16 0x1F0 r.2).2))
          (ptr, s) = r ∧ r.1 = blit ptr target (d.disk lba).mem (2 * k) ∧
      drive r.2 = d.inAt lba left k ∧ (k < 256 → busy r.2 = 0) := by
    intro k
    induction k with
    | zero => exact fun _ => ⟨_, rfl, (blit_zero ..).symm, hd, fun _ => h0⟩
    | succ k ih =>
      intro hk
      have hlt : k < 256 := hk
      obtain ⟨r, hr, hmem, hdrive, hbusy⟩ := ih (Nat.le_of_succ_le hk)
      have htransfer : (drive r.2).transfer = .dataIn lba left k := by
        rw [hdrive]
        exact if_pos hlt
      obtain ⟨hword, hnext, hb⟩ := h.dataIn r.2 lba left k (hbusy hlt) htransfer
      have htake : (drive r.2).take = (UInt16.ofNat (rd16 (d.disk lba).mem (2 * k)),
          d.inAt lba left (k + 1)) := by
        unfold Drive.take
        rw [htransfer, hdrive]
        rfl
      rw [htake] at hword hnext
      rw [upTo_succ, List.foldl_append, hr, List.foldl_cons, List.foldl_nil]
      refine ⟨_, rfl, ?_, hnext, fun hlt' => hb ?_⟩
      · dsimp only
        have hval : (dev.in16 0x1F0 r.2).1.toNat = rd16 (d.disk lba).mem (2 * k) := by
          rw [hword]
          exact UInt16.toNat_ofNat_of_lt' (rd16_lt _ _)
        rw [hval, hmem, wr16_blit]
      · unfold Drive.within
        rw [htransfer]
        exact decide_eq_true hlt'
  obtain ⟨r, hr, hmem, hdrive, -⟩ := hwords 256 le_rfl
  unfold readSector
  rw [hr]
  exact ⟨hmem, hdrive⟩

/-- The words that have gone out: with the last one the sector is written. -/
theorem writeSector_drive (h : IsAta dev capacity drive busy) {d : Drive} {lba left source : Nat}
    (ptr : Mem) (hd : drive s = d.outAt lba left 0 fun _ => 0) (h0 : busy s = 0) :
    drive (writeSector dev source ptr s) = d.outAt lba left 256 (view ptr source) := by
  have hwords : ∀ k ≤ 256, ∃ s', (upTo 0 k).foldl (fun s j =>
        dev.out16 0x1F0 (UInt16.ofNat (rd16 ptr (source + 2 * j))) s) s = s' ∧
      drive s' = d.outAt lba left k (blit (fun _ => 0) 0 (view ptr source) (2 * k)) ∧
      (k < 256 → busy s' = 0) := by
    intro k
    induction k with
    | zero =>
      refine fun _ => ⟨s, rfl, ?_, fun _ => h0⟩
      rw [hd, blit_zero]
    | succ k ih =>
      intro hk
      have hlt : k < 256 := hk
      obtain ⟨s', hs', hdrive, hbusy⟩ := ih (Nat.le_of_succ_le hk)
      have hout : drive s' = { d with
          transfer := .dataOut lba left k (blit (fun _ => 0) 0 (view ptr source) (2 * k)) } :=
        hdrive.trans (if_pos hlt)
      have htransfer : (drive s').transfer =
          .dataOut lba left k (blit (fun _ => 0) 0 (view ptr source) (2 * k)) := by rw [hout]
      obtain ⟨hnext, hb⟩ := h.dataOut s' (UInt16.ofNat (rd16 ptr (source + 2 * k))) lba left k _
        (hbusy hlt) htransfer
      rw [upTo_succ, List.foldl_append, hs', List.foldl_cons, List.foldl_nil]
      refine ⟨_, rfl, ?_, fun hlt' => hb ?_⟩
      · have hword : (UInt16.ofNat (rd16 ptr (source + 2 * k))).toNat =
            rd16 (view ptr source) (2 * k) := UInt16.toNat_ofNat_of_lt' (rd16_lt _ _)
        have hbuf := wr16_blit (fun _ => 0) (view ptr source) 0 k
        rw [Nat.zero_add] at hbuf
        rw [hnext]
        unfold Drive.put
        rw [htransfer, hout]
        dsimp only
        rw [hword, hbuf]
        rfl
      · unfold Drive.within
        rw [htransfer]
        exact decide_eq_true hlt'
  obtain ⟨s', hs', hdrive, -⟩ := hwords 256 le_rfl
  unfold writeSector
  rw [hs', hdrive]
  have hblock : blockOf (blit (fun _ => 0) 0 (view ptr source) (2 * 256)) =
      blockOf (view ptr source) := by
    funext o
    exact blit_of_mem (Nat.zero_le _) (by have := o.isLt; omega)
  unfold Drive.outAt
  rw [if_neg (lt_irrefl 256), if_neg (lt_irrefl 256), hblock]

/-! ## Blocks through the ports -/

/-- Between two sectors of a read. -/
def Drive.reading (lba n i : Nat) (d : Drive) : Drive :=
  { d with
    transfer := if i < n then .dataIn (lba + i) (n - i) 0 else .idle }

/-- Between two sectors of a write. -/
def Drive.writing (lba n i : Nat) (ptr : Mem) (d : Drive) : Drive :=
  { d with
    disk := storeBlocks d.disk lba i ptr
    transfer := if i < n then .dataOut (lba + i) (n - i) 0 fun _ => 0 else .idle }

theorem inAt_last {d : Drive} {lba n i : Nat} (hi : i < n) :
    d.inAt (lba + i) (n - i) 256 = d.reading lba n (i + 1) := by
  unfold Drive.inAt Drive.reading Drive.nextIn
  rw [if_neg (lt_irrefl 256)]
  by_cases hn : i + 1 < n
  · rw [if_neg (by omega), if_pos hn, Nat.sub_sub, Nat.add_assoc]
  · rw [if_pos (by omega), if_neg hn]

theorem outAt_last {d : Drive} {lba n i : Nat} {ptr : Mem} (hi : i < n) :
    Drive.outAt (lba + i) (n - i) 256 (view ptr (512 * i)) (d.writing lba n i ptr) =
      d.writing lba n (i + 1) ptr := by
  unfold Drive.outAt Drive.writing Drive.nextOut
  rw [if_neg (lt_irrefl 256)]
  dsimp only
  rw [storeBlocks_succ]
  by_cases hn : i + 1 < n
  · rw [if_neg (by omega), if_pos hn, Nat.sub_sub, Nat.add_assoc]
  · rw [if_pos (by omega), if_neg hn]

/-- A drive that waits for a command, with this on its disk. -/
def Rests (drive : σ → Drive) (disk : Disk) (s : σ) : Prop :=
  (drive s).transfer = .idle ∧ (drive s).disk = disk

/-- The blocks there are, from the address that the registers hold. -/
def Fits (capacity : Nat) (lba : UInt32) (blockCount : UInt8) : Prop :=
  blockCount ≠ 0 ∧ lba.toNat % 268435456 + blockCount.toNat ≤ capacity

theorem readBlocks_ends (h : IsAta dev capacity drive busy) {disk : Disk} (ptr : Mem)
    (hs : Rests drive disk s) (hfits : Fits capacity lba blockCount) :
    Ends (fun n => readBlocks dev ptr lba blockCount n s) fun r =>
      r.1 = loadBlocks disk (lba.toNat % 268435456) blockCount.toNat ptr ∧
        Rests drive disk r.2 := by
  obtain ⟨hidle, rfl⟩ := hs
  refine (busyWait_ends h s).bind fun s₁ hs₁ => ?_
  obtain ⟨d, hdisk, hlba, hsectors, hstart⟩ := ataCommand_drive h (Or.inl rfl)
    (by rw [hs₁.1]; exact hidle) hs₁.2 hfits.1 hfits.2
  rw [hs₁.1] at hdisk
  have hpos : 0 < blockCount.toNat := Nat.pos_of_ne_zero fun hc =>
    hfits.1 (UInt8.toNat_inj.mp hc)
  generalize lba.toNat % 268435456 = l at hlba hfits ⊢
  generalize blockCount.toNat = m at hsectors hpos ⊢
  refine (Ends.loop (I := fun i r => r.1 = loadBlocks d.disk l i ptr ∧
    drive r.2 = d.reading l m i) (fun i r hi hr => ?_) ⟨?_, ?_⟩).mono fun r hr => ?_
  · refine (busyWait_ends h r.2).bind fun s₂ hs₂ => (drqWait_ends h hs₂.2).bind fun s₃ hs₃ => ?_
    have hin : drive s₃ = d.inAt (l + i) (m - i) 0 := by
      rw [hs₃.1, hs₂.1, hr.2]
      exact congrArg (fun t => ({ d with transfer := t } : Drive)) (if_pos hi)
    obtain ⟨hmem, hdrive⟩ := readSector_drive h (512 * i) r.1 hin hs₃.2
    refine .of_eq (fun _ => rfl) ⟨?_, hdrive.trans (inAt_last hi)⟩
    rw [hmem, hr.1, loadBlocks_succ]
  · exact funext fun p => (if_neg (by omega)).symm
  · rw [hstart]
    refine (if_pos rfl).trans (congrArg (fun t => ({ d with transfer := t } : Drive)) ?_)
    rw [if_pos hpos, hlba, hsectors]
    rfl
  · refine ⟨by rw [hr.1, hdisk], ?_, ?_⟩ <;> rw [hr.2]
    · exact if_neg (lt_irrefl m)
    · exact hdisk

theorem writeBlocks_ends (h : IsAta dev capacity drive busy) {disk : Disk} (ptr : Mem)
    (hs : Rests drive disk s) (hfits : Fits capacity lba blockCount) :
    Ends (fun n => writeBlocks dev ptr lba blockCount n s)
      (Rests drive (storeBlocks disk (lba.toNat % 268435456) blockCount.toNat ptr)) := by
  obtain ⟨hidle, rfl⟩ := hs
  refine (busyWait_ends h s).bind fun s₁ hs₁ => ?_
  obtain ⟨d, hdisk, hlba, hsectors, hstart⟩ := ataCommand_drive h (Or.inr rfl)
    (by rw [hs₁.1]; exact hidle) hs₁.2 hfits.1 hfits.2
  rw [hs₁.1] at hdisk
  have hpos : 0 < blockCount.toNat := Nat.pos_of_ne_zero fun hc =>
    hfits.1 (UInt8.toNat_inj.mp hc)
  generalize lba.toNat % 268435456 = l at hlba hfits ⊢
  generalize blockCount.toNat = m at hsectors hpos ⊢
  refine (Ends.loop (I := fun i s => drive s = d.writing l m i ptr) (fun i s hi hr => ?_)
    ?_).mono fun r hr => ?_
  · refine (busyWait_ends h s).bind fun s₂ hs₂ => (drqWait_ends h hs₂.2).bind fun s₃ hs₃ => ?_
    have hout : drive s₃ = Drive.outAt (l + i) (m - i) 0 (fun _ => 0) (d.writing l m i ptr) := by
      rw [hs₃.1, hs₂.1, hr]
      exact congrArg (fun t => ({ d.writing l m i ptr with transfer := t } : Drive)) (if_pos hi)
    refine .of_eq (fun _ => rfl) ?_
    rw [writeSector_drive h ptr hout hs₃.2, outAt_last hi]
  · rw [hstart]
    refine (if_neg (by decide)).trans ?_
    unfold Drive.writing
    rw [if_pos hpos, hlba, hsectors, show storeBlocks d.disk l 0 ptr = d.disk from
      funext fun b => if_neg fun hb => by omega]
    rfl
  · refine ⟨?_, ?_⟩ <;> rw [hr]
    · exact if_neg (lt_irrefl m)
    · rw [← hdisk]
      rfl

end Transfers

/-! ## Runs -/

/-- A call of the driver, with its buffer. -/
inductive BlockCall where
  | read (ptr : Mem) (lba : UInt32) (blockCount : UInt8)
  | write (ptr : Mem) (lba : UInt32) (blockCount : UInt8)

namespace BlockCall

/-- The buffer afterwards. -/
def run {σ : Type*} (dev : Ports σ) (fuel : Nat) : BlockCall → σ → Option (Mem × σ)
  | read ptr lba blockCount, s => readBlocks dev ptr lba blockCount fuel s
  | write ptr lba blockCount, s => (writeBlocks dev ptr lba blockCount fuel s).map fun s => (ptr, s)

/-- What an array of blocks makes of it. -/
def answer (disk : Disk) : BlockCall → Mem × Disk
  | read ptr lba blockCount =>
    (loadBlocks disk (lba.toNat % 268435456) blockCount.toNat ptr, disk)
  | write ptr lba blockCount =>
    (ptr, storeBlocks disk (lba.toNat % 268435456) blockCount.toNat ptr)

def Fits (capacity : Nat) : BlockCall → Prop
  | read _ lba blockCount => Drivers.Fits capacity lba blockCount
  | write _ lba blockCount => Drivers.Fits capacity lba blockCount

end BlockCall

/-- A run of calls, with the buffers they leave. -/
def runCalls {σ : Type*} (dev : Ports σ) (fuel : Nat) : List BlockCall → σ → Option (List Mem × σ)
  | [], s => some ([], s)
  | c :: cs, s => (c.run dev fuel s).bind fun r =>
      (runCalls dev fuel cs r.2).map fun rs => (r.1 :: rs.1, rs.2)

/-- The same run on an array of blocks. -/
def answers : List BlockCall → Disk → List Mem × Disk
  | [], disk => ([], disk)
  | c :: cs, disk => ((c.answer disk).1 :: (answers cs (c.answer disk).2).1,
      (answers cs (c.answer disk).2).2)

section Runs

variable {σ : Type*} {dev : Ports σ} {capacity : Nat} {drive : σ → Drive} {busy : σ → Nat} {s : σ}

theorem run_ends (h : IsAta dev capacity drive busy) {disk : Disk} {c : BlockCall}
    (hs : Rests drive disk s) (hfits : c.Fits capacity) :
    Ends (fun n => c.run dev n s) fun r =>
      r.1 = (c.answer disk).1 ∧ Rests drive (c.answer disk).2 r.2 := by
  cases c with
  | read ptr lba blockCount => exact readBlocks_ends h ptr hs hfits
  | write ptr lba blockCount =>
    refine ((writeBlocks_ends h ptr hs hfits).bind fun s' hs' =>
      .of_eq (a := (ptr, s')) (fun _ => rfl) ⟨rfl, hs'⟩).mono_eq fun n => ?_
    exact (Option.map_eq_bind ..).trans rfl

theorem runCalls_ends (h : IsAta dev capacity drive busy) {disk : Disk}
    (hs : Rests drive disk s) {calls : List BlockCall} (hfits : ∀ c ∈ calls, c.Fits capacity) :
    Ends (fun n => runCalls dev n calls s) fun r =>
      r.1 = (answers calls disk).1 ∧ Rests drive (answers calls disk).2 r.2 := by
  induction calls generalizing s disk with
  | nil => exact .of_eq (fun _ => rfl) ⟨rfl, hs⟩
  | cons c cs ih =>
    refine (run_ends h hs (hfits c List.mem_cons_self)).bind fun r hr => ?_
    refine ((ih hr.2 fun c hc => hfits c (List.mem_cons_of_mem _ hc)).bind fun rs hrs =>
      .of_eq (a := (r.1 :: rs.1, rs.2)) (fun _ => rfl)
        ⟨congrArg₂ _ hr.1 hrs.1, hrs.2⟩).mono_eq fun n => ?_
    exact (Option.map_eq_bind ..).trans rfl

/-- However long the drive takes, a run of calls ends, and answers as an array of blocks does; of
    one block these are the answers that the file system reckons with. -/
theorem disk_driver_refines (h : IsAta dev capacity drive busy) {disk : Disk}
    (hs : Rests drive disk s) {calls : List BlockCall} (hfits : ∀ c ∈ calls, c.Fits capacity) :
    (Ends (fun n => runCalls dev n calls s) fun r =>
      r.1 = (answers calls disk).1 ∧ Rests drive (answers calls disk).2 r.2) ∧
    ∀ (fs : Fs) (lba : UInt32) (buf : Mem),
      (BlockCall.read fs.stack lba 1).answer fs.disk =
        (fs.readBlocks (lba.toNat % 268435456), fs.disk) ∧
      (BlockCall.write buf lba 1).answer fs.disk =
        (buf, (fs.writeBlocks (lba.toNat % 268435456) buf).disk) :=
  ⟨runCalls_ends h hs hfits, fun fs _ buf =>
    ⟨congrArg (·, fs.disk) (loadBlocks_one fs _), congrArg (buf, ·) (storeBlocks_one fs _ buf)⟩⟩

end Runs

/-! ## A drive -/

/-- A drive, and how many more status reads find it busy. -/
structure SlowDrive where
  drive : Drive
  busy : Nat

/-- It is busy for three status reads after each command and each sector. -/
def slowPorts : Ports SlowDrive where
  in8 _ s := if s.busy = 0 then (0x58, s) else (0xD0, { s with busy := s.busy - 1 })
  out8 port data s :=
    if port = 0x1F7 then ⟨s.drive.start data, 3⟩ else { s with drive := s.drive.set port data }
  in16 _ s := (s.drive.take.1, ⟨s.drive.take.2, if s.drive.within then 0 else 3⟩)
  out16 _ data s := ⟨s.drive.put data, if s.drive.within then 0 else 3⟩

theorem isAta_slowPorts : IsAta slowPorts 2048 SlowDrive.drive SlowDrive.busy where
  status s := by
    unfold slowPorts
    dsimp only
    split <;> rfl
  waiting s hs := by
    have hin : slowPorts.in8 0x1F7 s = (0xD0, { s with busy := s.busy - 1 }) := if_neg hs
    rw [hin]
    exact ⟨show (0xD0 : UInt8) &&& 0x80 ≠ 0 by decide, Nat.sub_one_lt hs⟩
  ready s hs := by
    have hin : slowPorts.in8 0x1F7 s = (0x58, s) := if_pos hs
    rw [hin]
    exact ⟨show (0x58 : UInt8) &&& 0x80 = 0 by decide, show (0x58 : UInt8) &&& 0x40 ≠ 0 by decide,
      hs⟩
  register s port data h0 _ _ hle := by
    have hne : port ≠ 0x1F7 := by
      rintro rfl
      exact absurd hle (by decide)
    have hout : slowPorts.out8 port data s = { s with drive := s.drive.set port data } := if_neg hne
    rw [hout]
    exact ⟨rfl, h0⟩
  command s c _ _ _ _ _ := rfl
  dataIn s lba left word _ _ := ⟨rfl, rfl, fun hw => if_pos hw⟩
  dataOut s data lba left word buf _ _ := ⟨rfl, fun hw => if_pos hw⟩

/-- A block is written and read back. -/
def writeAndRead : List BlockCall := [.write (fun _ => 7) 3 1, .read (fun _ => 0) 2 2]

theorem disk_driver_refines_slow :
    (Ends (fun n => runCalls slowPorts n writeAndRead ⟨⟨fun _ _ => 0, 0, 0, 0, 0, 0, .idle⟩, 3⟩)
      fun r => r.1 = (answers writeAndRead fun _ _ => 0).1 ∧
        Rests SlowDrive.drive (answers writeAndRead fun _ _ => 0).2 r.2) ∧
    ∀ (fs : Fs) (lba : UInt32) (buf : Mem),
      (BlockCall.read fs.stack lba 1).answer fs.disk =
        (fs.readBlocks (lba.toNat % 268435456), fs.disk) ∧
      (BlockCall.write buf lba 1).answer fs.disk =
        (buf, (fs.writeBlocks (lba.toNat % 268435456) buf).disk) := by
  refine disk_driver_refines isAta_slowPorts ⟨rfl, rfl⟩ fun c hc => ?_
  rcases List.mem_cons.mp hc with rfl | hc
  · exact ⟨by decide, by decide⟩
  · rw [List.mem_singleton.mp hc]
    exact ⟨by decide, by decide⟩

end LossOs.Drivers
