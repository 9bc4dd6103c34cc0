/-
  `drivers/graphics.c`: pixels, cursors, characters and blocks of 8x8 in VGA mode 12h.

  Video memory is four planes of 38400 bytes. A store goes to the planes of the map mask, a load
  comes from the plane of the read map; an access behind a plane is `none`. What each function
  draws is stated on the picture (`vgaDrawPixel_refines`, `vgaFill8x8_refines`,
  `vgaDrawChar_refines`).
-/
import LossOs.Drivers.Font
import LossOs.Lib.Planar
import Mathlib.Data.Nat.Bitwise

namespace LossOs.Drivers

open LossOs.Lib

/-! ## Video memory and its ports -/

def VGA_WIDTH : Int := 640
def VGA_HEIGHT : Int := 480
def VGA_PITCH : Int := 80
def VGA_SEQ_INDEX : UInt16 := 0x3C4
def VGA_SEQ_DATA : UInt16 := 0x3C5
def VGA_GC_INDEX : UInt16 := 0x3CE
def VGA_GC_DATA : UInt16 := 0x3CF

/-- The planes, and the registers of the sequencer and of the graphics controller. -/
structure Vga where
  planes : Planes 4 80 480
  seqIndex : UInt8
  seq : UInt8 → UInt8
  gcIndex : UInt8
  gc : UInt8 → UInt8

/-- `out` to the ports of the two controllers. -/
def out (port : UInt16) (data : UInt8) (v : Vga) : Vga :=
  if port = VGA_SEQ_INDEX then { v with seqIndex := data }
  else if port = VGA_SEQ_DATA then { v with seq := Function.update v.seq v.seqIndex data }
  else if port = VGA_GC_INDEX then { v with gcIndex := data }
  else if port = VGA_GC_DATA then { v with gc := Function.update v.gc v.gcIndex data }
  else v

def Vga.mapMask (v : Vga) : UInt8 := v.seq 2

def Vga.readMap (v : Vga) : UInt8 := v.gc 4

/-- Load `vga[i]`. -/
def Vga.load (v : Vga) (i : Int) : Option UInt8 :=
  if h : 0 ≤ i ∧ i < 38400 then some (v.planes (Fin.ofNat 4 v.readMap.toNat) ⟨i.toNat, by omega⟩)
  else none

/-- Store `vga[i]`. -/
def Vga.store (v : Vga) (i : Int) (data : UInt8) : Option Vga :=
  if 0 ≤ i ∧ i < 38400 then
    some { v with planes := fun p o =>
      if v.mapMask.toNat.testBit p ∧ (o.val : Int) = i then data else v.planes p o }
  else none

/-- The plane for stores, and the plane for loads. -/
def selectPlane (plane : Fin 4) (v : Vga) : Vga :=
  let v := out VGA_SEQ_INDEX 0x02 v
  let v := out VGA_SEQ_DATA (UInt8.ofNat (1 <<< plane.val)) v
  let v := out VGA_GC_INDEX 0x04 v
  out VGA_GC_DATA (UInt8.ofNat plane.val) v

/-! ## Drawing -/

def vgaDrawPixel (x y : Int) (color : UInt8) (v : Vga) : Option Vga :=
  if x < 0 ∨ x ≥ VGA_WIDTH ∨ y < 0 ∨ y ≥ VGA_HEIGHT then some v
  else
    let byteIndex := y * VGA_PITCH + (x >>> (3 : Nat))
    let mask := UInt8.ofNat (1 <<< (7 - (x.toNat &&& 7)))
    loop (List.finRange 4) (fun plane v => do
      let v := selectPlane plane v
      let current ← v.load byteIndex
      if color &&& UInt8.ofNat (1 <<< plane.val) ≠ 0 then v.store byteIndex (current ||| mask)
      else v.store byteIndex (current &&& ~~~mask)) v

def vgaDrawCursor (cx cy : Int) (color : UInt8) : Vga → Option Vga :=
  let px := cx * 8
  let py := cy * 8
  loop (upTo 7 8) fun dy => loop (upTo 0 8) fun dx => vgaDrawPixel (px + dx) (py + dy) color

def vgaClearCursor (cx cy : Int) : Vga → Option Vga :=
  let px := cx * 8
  let py := cy * 8
  loop (upTo 7 16) fun dy => loop (upTo 0 8) fun dx => vgaDrawPixel (px + dx) (py + dy) 0x00

def vgaDrawChar (x y : Int) (c : Int8) (color : UInt8) (v : Vga) : Option Vga :=
  let x := x * 8
  let y := y * 8
  if c.toInt < 32 ∨ c.toInt > 126 then some v
  else do
    let v ← loop (upTo 0 8) (fun dy => loop (upTo 0 8) fun dx =>
      vgaDrawPixel (x + dx) (y + dy) 0x00) v
    let glyph ← font8x8[(c.toInt - 32).toNat]?
    loop (upTo 0 8) (fun row v => do
      let bits ← glyph[row]?
      loop (upTo 0 8) (fun col v =>
        if bits &&& UInt8.ofNat (1 <<< col) ≠ 0 then vgaDrawPixel (x + col) (y + row) color v
        else some v) v) v

/-- The bits of `mask` in `vga[i]` are set or cleared. -/
def maskByte (i : Int) (mask planeValue : UInt8) (v : Vga) : Option Vga := do
  let current ← v.load i
  if planeValue ≠ 0 then v.store i (current ||| mask) else v.store i (current &&& ~~~mask)

/-- What `vga_fill8x8` does in a plane. -/
def fillPlane (x y : Int) (planeValue : UInt8) : Vga → Option Vga :=
  let startByte := x >>> (3 : Nat)
  let startBit := x.toNat &&& 7
  if startBit = 0 then
    loop (upTo 0 8) fun row v => v.store ((y + row) * VGA_PITCH + startByte) planeValue
  else
    let leftMask := UInt8.ofNat (0xFF >>> startBit)
    let rightMask := UInt8.ofNat (0xFF <<< (8 - startBit))
    loop (upTo 0 8) fun row v => do
      let scanline := (y + row) * VGA_PITCH
      let v ← maskByte (scanline + startByte) leftMask planeValue v
      maskByte (scanline + (startByte + 1)) rightMask planeValue v

def vgaFill8x8 (x y : Int) (color : UInt8) (v : Vga) : Option Vga :=
  if x < 0 ∨ x + 8 > VGA_WIDTH ∨ y < 0 ∨ y + 8 > VGA_HEIGHT then some v
  else
    loop (List.finRange 4) (fun plane v =>
      let v := selectPlane plane v
      let planeValue : UInt8 := if color &&& UInt8.ofNat (1 <<< plane.val) ≠ 0 then 0xFF else 0x00
      fillPlane x y planeValue v) v

/-! ## One plane -/

/-- The picture on the screen. -/
def pixels (v : Vga) : Picture 4 80 480 := v.planes.picture

/-- The low four bits of a colour. -/
def lowBits (color : UInt8) (p : Fin 4) : Bool := color.toNat.testBit p

/-- Stores go to plane `p`, and loads come from it. -/
structure Selected (p : Fin 4) (v : Vga) : Prop where
  mapMask : ∀ q : Fin 4, v.mapMask.toNat.testBit q = decide (q = p)
  readMap : Fin.ofNat 4 v.readMap.toNat = p

section Plane

variable {v : Vga} {p : Fin 4} {i : Int} {mask color : UInt8}

theorem selected_selectPlane (p : Fin 4) (v : Vga) : Selected p (selectPlane p v) := by
  constructor
  · show ∀ q : Fin 4, (UInt8.ofNat (1 <<< p.val)).toNat.testBit q = decide (q = p)
    revert p
    decide
  · show Fin.ofNat 4 (UInt8.ofNat p.val).toNat = p
    revert p
    decide

/-- The test of bit `k`. -/
theorem testBit_iff {bits : UInt8} {k : Nat} (hk : k < 8) :
    bits &&& UInt8.ofNat (1 <<< k) ≠ 0 ↔ bits.toNat.testBit k = true := by
  have hpow : ∀ k < 8, (UInt8.ofNat (1 <<< k)).toNat = 2 ^ k := by decide
  rw [ne_eq, ← UInt8.toNat_inj, UInt8.toNat_and, hpow k hk, UInt8.toNat_zero, Nat.and_two_pow]
  cases bits.toNat.testBit k <;> simp

theorem lowBits_iff : color &&& UInt8.ofNat (1 <<< p.val) ≠ 0 ↔ lowBits color p = true :=
  testBit_iff (by omega)

theorem load_eq (hp : Selected p v) (h : 0 ≤ i ∧ i < 38400) :
    v.load i = some (v.planes p ⟨i.toNat, by omega⟩) := by
  unfold Vga.load
  rw [dif_pos h, hp.readMap]

theorem store_eq (hp : Selected p v) (h : 0 ≤ i ∧ i < 38400) (data : UInt8) :
    v.store i data = some { v with planes := v.planes.set p ⟨i.toNat, by omega⟩ data } := by
  unfold Vga.store
  rw [if_pos h]
  congr 2
  funext q o
  unfold Planes.set
  rw [hp.mapMask]
  have ho : (o.val : Int) = i ↔ o = (⟨i.toNat, by omega⟩ : Fin (80 * 480)) := by
    rw [Fin.ext_iff]
    show _ ↔ o.val = i.toNat
    omega
  simp only [decide_eq_true_eq, ho]
  by_cases hq : q = p
  · subst hq
    rw [Function.update_self]
    by_cases ho : o = ⟨i.toNat, by omega⟩
    · rw [if_pos ⟨rfl, ho⟩, ho, Function.update_self]
    · rw [if_neg fun hc => ho hc.2, Function.update_of_ne ho]
  · rw [if_neg fun hc => hq hc.1, Function.update_of_ne hq]

/-- A byte of the selected plane is changed under a mask. -/
theorem blend_refines {b : Bool} (h : 0 ≤ i ∧ i < 38400) {f : UInt8 → Vga → Option Vga}
    (hf : ∀ cur v, f cur v = v.store i (blend b mask cur)) :
    Refines pixels (Selected p) (fun v => (v.load i).bind fun cur => f cur v)
      (Picture.plot p (Planes.under 80 i.toNat mask) b) := by
  intro v hp
  dsimp only
  rw [load_eq hp h]
  refine ⟨_, (hf _ v).trans (store_eq hp h _), ⟨hp.mapMask, hp.readMap⟩, ?_⟩
  exact Planes.picture_set_blend v.planes p ⟨i.toNat, by omega⟩ b mask

/-- A byte of the selected plane is stored. -/
theorem store_refines {b : Bool} (h : 0 ≤ i ∧ i < 38400) :
    Refines pixels (Selected p) (fun v => v.store i (if b then 0xFF else 0x00))
      (Picture.plot p (Planes.under 80 i.toNat 0xFF) b) := by
  intro v hp
  refine ⟨_, store_eq hp h _, ⟨hp.mapMask, hp.readMap⟩, ?_⟩
  have hset := Planes.picture_set_blend v.planes p ⟨i.toNat, by omega⟩ b 0xFF
  rwa [blend_full] at hset

/-- What is plotted in each plane is painted. -/
theorem planes_refine {S : Set (ℤ × ℤ)} {body : Fin 4 → Vga → Option Vga}
    (h : ∀ p, Refines pixels (Selected p) (body p) (Picture.plot p S (lowBits color p))) :
    Refines pixels (fun _ => True) (loop (List.finRange 4) fun p v => body p (selectPlane p v))
      (Picture.paint S (lowBits color)) := by
  have hloop : Refines pixels (fun _ => True)
      (loop (List.finRange 4) fun p v => body p (selectPlane p v))
      (fun P => (List.finRange 4).foldl (fun P p => P.plot p S (lowBits color p)) P) := by
    apply Refines.loop
    intro p _ v _
    obtain ⟨v', hv', -, hpix⟩ := h p _ (selected_selectPlane p v)
    exact ⟨v', hv', trivial, hpix⟩
  intro v hv
  obtain ⟨v', hv', -, hpix⟩ := hloop v hv
  exact ⟨v', hv', trivial, hpix.trans (Picture.foldl_plot S (lowBits color))⟩

end Plane

/-! ## Pixels -/

section Masks

variable {s k : Nat}

theorem leftBit_pixel (hs : s < 8) (hk : k < 8) :
    leftBit (UInt8.ofNat (1 <<< (7 - s))) k = decide (k = s) := by
  have h : ∀ s < 8, ∀ k < 8, leftBit (UInt8.ofNat (1 <<< (7 - s))) k = decide (k = s) := by decide
  exact h s hs k hk

theorem leftBit_leftMask (hs : s < 8) (hk : k < 8) :
    leftBit (UInt8.ofNat (0xFF >>> s)) k = decide (s ≤ k) := by
  have h : ∀ s < 8, ∀ k < 8, leftBit (UInt8.ofNat (0xFF >>> s)) k = decide (s ≤ k) := by decide
  exact h s hs k hk

theorem leftBit_rightMask (hs : s < 8) (hk : k < 8) :
    leftBit (UInt8.ofNat (0xFF <<< (8 - s))) k = decide (k < s) := by
  have h : ∀ s < 8, ∀ k < 8, leftBit (UInt8.ofNat (0xFF <<< (8 - s))) k = decide (k < s) := by
    decide
  exact h s hs k hk

end Masks

/-- The points of the block of `w` by `h` pixels at (`x`, `y`). -/
def block (x y w h : Int) : Set (ℤ × ℤ) := {q | x ≤ q.1 ∧ q.1 < x + w ∧ y ≤ q.2 ∧ q.2 < y + h}

section Pixels

variable {x y : Int} {color : UInt8}

theorem shiftRight_three (x : Int) : x >>> (3 : Nat) = x / 8 := Int.shiftRight_eq_div_pow x 3

theorem and_seven (n : Nat) : n &&& 7 = n % 8 := Nat.and_two_pow_sub_one_eq_mod n 3

theorem vgaDrawPixel_refines (x y : Int) (color : UInt8) :
    Refines pixels (fun _ => True) (vgaDrawPixel x y color)
      (Picture.paint (block x y 1 1) (lowBits color)) := by
  intro v hv
  unfold vgaDrawPixel VGA_WIDTH VGA_HEIGHT VGA_PITCH
  by_cases hout : x < 0 ∨ x ≥ 640 ∨ y < 0 ∨ y ≥ 480
  · -- clipped
    rw [if_pos hout]
    refine ⟨v, rfl, hv, ?_⟩
    funext a b
    refine (Picture.paint_not_mem ?_).symm
    rintro ⟨h1, h2, h3, h4⟩
    have := a.isLt
    have := b.isLt
    dsimp only at h1 h2 h3 h4
    omega
  rw [if_neg hout, shiftRight_three, and_seven]
  have hrange : 0 ≤ y * 80 + x / 8 ∧ y * 80 + x / 8 < 38400 := by omega
  have hbody : ∀ p : Fin 4, Refines pixels (Selected p)
      (fun v => (v.load (y * 80 + x / 8)).bind fun cur =>
        if color &&& UInt8.ofNat (1 <<< p.val) ≠ 0 then
          v.store (y * 80 + x / 8) (cur ||| UInt8.ofNat (1 <<< (7 - x.toNat % 8)))
        else v.store (y * 80 + x / 8) (cur &&& ~~~UInt8.ofNat (1 <<< (7 - x.toNat % 8))))
      (Picture.plot p (block x y 1 1) (lowBits color p)) := by
    intro p v hp
    obtain ⟨v', hv', hp', hpix⟩ := @blend_refines p (y * 80 + x / 8)
      (UInt8.ofNat (1 <<< (7 - x.toNat % 8))) (lowBits color p) hrange
      (fun cur v => if color &&& UInt8.ofNat (1 <<< p.val) ≠ 0 then
          v.store (y * 80 + x / 8) (cur ||| UInt8.ofNat (1 <<< (7 - x.toNat % 8)))
        else v.store (y * 80 + x / 8) (cur &&& ~~~UInt8.ofNat (1 <<< (7 - x.toNat % 8))))
      (fun cur v => by
        unfold blend
        by_cases hb : lowBits color p = true
        · rw [if_pos (lowBits_iff.mpr hb), if_pos hb]
        · rw [if_neg fun h => hb (lowBits_iff.mp h), if_neg hb]) v hp
    refine ⟨v', hv', hp', hpix.trans (Picture.plot_congr fun a b => ?_)⟩
    -- the byte and the bit are those of one pixel
    have ha := a.isLt
    have hbit := @leftBit_pixel (x.toNat % 8) ((a : ℤ) % 8).toNat (by omega) (by omega)
    show _ ∧ leftBit _ ((a : ℤ) % 8).toNat = true ↔ _
    rw [hbit, decide_eq_true_iff]
    show ((b : ℤ) * (80 : Nat) + (a : ℤ) / 8 = _ ∧ _) ↔ (x ≤ (a : ℤ) ∧ (a : ℤ) < x + 1 ∧
      y ≤ (b : ℤ) ∧ (b : ℤ) < y + 1)
    omega
  exact planes_refine hbody v hv

/-! ## Blocks of pixels -/

/-- Two loops over a block. -/
theorem block_refines (x y : Int) (lo hi : Nat) (color : UInt8) :
    Refines pixels (fun _ => True)
      (loop (upTo lo hi) fun dy => loop (upTo 0 8) fun dx => vgaDrawPixel (x + dx) (y + dy) color)
      (Picture.paint (block x (y + lo) 8 (hi - lo)) (lowBits color)) := by
  have hrow : ∀ dy : Nat, Refines pixels (fun _ => True)
      (loop (upTo 0 8) fun dx => vgaDrawPixel (x + dx) (y + dy) color)
      (Picture.paint {q | ∃ dx ∈ upTo 0 8, q ∈ block (x + dx) (y + dy) 1 1} (lowBits color)) :=
    fun dy => Picture.loop_paint fun dx _ => vgaDrawPixel_refines (x + dx) (y + dy) color
  refine (Picture.loop_paint fun dy (_ : dy ∈ upTo lo hi) => hrow dy).congr (fun _ => rfl)
    fun P => ?_
  congr 1
  ext ⟨a, b⟩
  unfold block
  constructor
  · rintro ⟨dy, hdy, dx, hdx, h1, h2, h3, h4⟩
    have := mem_upTo.mp hdy
    have := mem_upTo.mp hdx
    dsimp only at h1 h2 h3 h4
    refine ⟨?_, ?_, ?_, ?_⟩ <;> dsimp only <;> omega
  · rintro ⟨h1, h2, h3, h4⟩
    dsimp only at h1 h2 h3 h4
    refine ⟨(b - y).toNat, mem_upTo.mpr (by omega), (a - x).toNat,
      mem_upTo.mpr (by omega), ?_, ?_, ?_, ?_⟩ <;> dsimp only <;> omega

theorem vgaDrawCursor_refines (cx cy : Int) (color : UInt8) :
    Refines pixels (fun _ => True) (vgaDrawCursor cx cy color)
      (Picture.paint (block (cx * 8) (cy * 8 + 7) 8 1) (lowBits color)) :=
  block_refines (cx * 8) (cy * 8) 7 8 color

theorem vgaClearCursor_refines (cx cy : Int) :
    Refines pixels (fun _ => True) (vgaClearCursor cx cy)
      (Picture.paint (block (cx * 8) (cy * 8 + 7) 8 9) (lowBits 0)) :=
  block_refines (cx * 8) (cy * 8) 7 16 0x00

theorem shift_rows (a b x y : ℤ) : ((a, b) ∈ {q | ∃ row ∈ upTo 0 8, q ∈ block x (y + row) 8 1}) ↔
    (a, b) ∈ block x y 8 8 := by
  unfold block
  constructor
  · rintro ⟨row, hrow, h1, h2, h3, h4⟩
    have := mem_upTo.mp hrow
    dsimp only at h1 h2 h3 h4
    refine ⟨?_, ?_, ?_, ?_⟩ <;> dsimp only <;> omega
  · rintro ⟨h1, h2, h3, h4⟩
    dsimp only at h1 h2 h3 h4
    refine ⟨(b - y).toNat, mem_upTo.mpr (by omega), ?_, ?_, ?_, ?_⟩ <;> dsimp only <;> omega

section Fill

variable {p : Fin 4} {b : Bool} {row : Nat}

/-- A row of a block that starts with a byte. -/
theorem alignedRow_refines (hx : 0 ≤ x ∧ x + 8 ≤ 640) (hy : 0 ≤ y ∧ y < 480) (h0 : x % 8 = 0) :
    Refines pixels (Selected p) (fun v => v.store (y * 80 + x / 8) (if b then 0xFF else 0x00))
      (Picture.plot p (block x y 8 1) b) := by
  refine (store_refines (by omega)).congr (fun _ => rfl) fun P => Picture.plot_congr fun c d => ?_
  have hc := c.isLt
  have hones : ∀ k < 8, leftBit 0xFF k = true := by decide
  show ((d : ℤ) * (80 : Nat) + (c : ℤ) / 8 = _ ∧ leftBit _ ((c : ℤ) % 8).toNat = true) ↔
    (x ≤ (c : ℤ) ∧ (c : ℤ) < x + 8 ∧ y ≤ (d : ℤ) ∧ (d : ℤ) < y + 1)
  rw [hones _ (by omega), and_iff_left rfl]
  omega

/-- The part of a row in the byte where it starts, under the left mask. -/
theorem leftPart (hx : 0 ≤ x ∧ x + 8 ≤ 640) (hy : 0 ≤ y ∧ y < 480) (P : Picture 4 80 480) :
    P.plot p (Planes.under 80 (y * 80 + x / 8).toNat (UInt8.ofNat (0xFF >>> (x.toNat % 8)))) b =
      P.plot p (block x y (8 - x % 8) 1) b := by
  apply Picture.plot_congr
  intro c d
  have hc := c.isLt
  have hbit := @leftBit_leftMask (x.toNat % 8) ((c : ℤ) % 8).toNat (by omega) (by omega)
  show ((d : ℤ) * (80 : Nat) + (c : ℤ) / 8 = _ ∧ leftBit _ ((c : ℤ) % 8).toNat = true) ↔
    (x ≤ (c : ℤ) ∧ (c : ℤ) < x + (8 - x % 8) ∧ y ≤ (d : ℤ) ∧ (d : ℤ) < y + 1)
  rw [hbit, decide_eq_true_iff]
  omega

/-- The rest of it in the next byte, under the right mask. -/
theorem rightPart (hx : 0 ≤ x ∧ x + 8 ≤ 640) (hy : 0 ≤ y ∧ y < 480) (P : Picture 4 80 480) :
    P.plot p (Planes.under 80 (y * 80 + (x / 8 + 1)).toNat
        (UInt8.ofNat (0xFF <<< (8 - x.toNat % 8)))) b =
      P.plot p (block (x + (8 - x % 8)) y (x % 8) 1) b := by
  apply Picture.plot_congr
  intro c d
  have hc := c.isLt
  have hbit := @leftBit_rightMask (x.toNat % 8) ((c : ℤ) % 8).toNat (by omega) (by omega)
  show ((d : ℤ) * (80 : Nat) + (c : ℤ) / 8 = _ ∧ leftBit _ ((c : ℤ) % 8).toNat = true) ↔
    (x + (8 - x % 8) ≤ (c : ℤ) ∧ (c : ℤ) < x + (8 - x % 8) + x % 8 ∧
      y ≤ (d : ℤ) ∧ (d : ℤ) < y + 1)
  rw [hbit, decide_eq_true_iff]
  omega

/-- The value of a plane says which way the bits of a mask go. -/
theorem maskByte_refines {i : Int} {mask : UInt8} (h : 0 ≤ i ∧ i < 38400) :
    Refines pixels (Selected p) (maskByte i mask (if b then 0xFF else 0x00))
      (Picture.plot p (Planes.under 80 i.toNat mask) b) :=
  blend_refines h fun cur v => by
    unfold blend
    cases b
    · exact if_neg (by decide)
    · exact if_pos (by decide)

/-- A row of a block that starts within a byte. -/
theorem unalignedRow_refines (hx : 0 ≤ x ∧ x + 8 ≤ 640) (hy : 0 ≤ y ∧ y < 480) (h0 : x % 8 ≠ 0) :
    Refines pixels (Selected p)
      (fun v => (maskByte (y * 80 + x / 8) (UInt8.ofNat (0xFF >>> (x.toNat % 8)))
        (if b then 0xFF else 0x00) v).bind
          (maskByte (y * 80 + (x / 8 + 1)) (UInt8.ofNat (0xFF <<< (8 - x.toNat % 8)))
            (if b then 0xFF else 0x00)))
      (Picture.plot p (block x y 8 1) b) := by
  refine ((maskByte_refines (by omega)).bind (maskByte_refines (by omega))).congr (fun _ => rfl)
    fun P => ?_
  show (P.plot p _ b).plot p _ b = _
  rw [leftPart hx hy, rightPart hx hy, Picture.plot_plot]
  apply Picture.plot_congr
  intro c d
  show ((x ≤ (c : ℤ) ∧ (c : ℤ) < x + (8 - x % 8) ∧ y ≤ (d : ℤ) ∧ (d : ℤ) < y + 1) ∨
    (x + (8 - x % 8) ≤ (c : ℤ) ∧ (c : ℤ) < x + (8 - x % 8) + x % 8 ∧ y ≤ (d : ℤ) ∧
      (d : ℤ) < y + 1)) ↔ (x ≤ (c : ℤ) ∧ (c : ℤ) < x + 8 ∧ y ≤ (d : ℤ) ∧ (d : ℤ) < y + 1)
  omega

/-- In a plane all eight rows get the bit of the colour. -/
theorem fillPlane_refines (hx : 0 ≤ x ∧ x + 8 ≤ 640) (hy : 0 ≤ y ∧ y + 8 ≤ 480) :
    Refines pixels (Selected p) (fillPlane x y (if b then 0xFF else 0x00))
      (Picture.plot p (block x y 8 8) b) := by
  have hrows : ∀ {F : Nat → Vga → Option Vga}, (∀ row ∈ upTo 0 8,
      Refines pixels (Selected p) (F row) (Picture.plot p (block x (y + row) 8 1) b)) →
      Refines pixels (Selected p) (loop (upTo 0 8) F) (Picture.plot p (block x y 8 8) b) :=
    fun hF => (Picture.loop_plot hF).congr (fun _ => rfl) fun P =>
      Picture.plot_congr fun c d => shift_rows c d x y
  unfold fillPlane VGA_PITCH
  rw [shiftRight_three, and_seven]
  dsimp only
  by_cases h0 : x.toNat % 8 = 0
  · -- the block starts with a byte
    rw [if_pos h0]
    apply hrows
    intro row hrow
    have := mem_upTo.mp hrow
    exact alignedRow_refines hx (by omega) (by omega)
  · rw [if_neg h0]
    apply hrows
    intro row hrow
    have := mem_upTo.mp hrow
    exact unalignedRow_refines hx (by omega) (by omega)

end Fill

theorem vgaFill8x8_refines (hx : 0 ≤ x ∧ x + 8 ≤ 640) (hy : 0 ≤ y ∧ y + 8 ≤ 480) (color : UInt8) :
    Refines pixels (fun _ => True) (vgaFill8x8 x y color)
      (Picture.paint (block x y 8 8) (lowBits color)) := by
  intro v hv
  unfold vgaFill8x8 VGA_WIDTH VGA_HEIGHT
  rw [if_neg (by omega)]
  refine planes_refine (fun p => ?_) v hv
  have hvalue : (if color &&& UInt8.ofNat (1 <<< p.val) ≠ 0 then (0xFF : UInt8) else 0x00) =
      if lowBits color p then 0xFF else 0x00 := by
    by_cases hb : lowBits color p = true
    · rw [if_pos (lowBits_iff.mpr hb), if_pos hb]
    · rw [if_neg fun h => hb (lowBits_iff.mp h), if_neg hb]
  rw [hvalue]
  exact fillPlane_refines hx hy

/-! ## Characters -/

/-- Bit `i` of `font8x8[c - 32][j]`. -/
def glyphBit (c : Int8) (i j : Nat) : Bool :=
  ((font8x8.getD (c.toInt - 32).toNat []).getD j 0).toNat.testBit i

/-- The pixels of a character at (`x`, `y`). -/
def ink (c : Int8) (x y : Int) : Set (ℤ × ℤ) :=
  {q | ∃ row ∈ upTo 0 8, ∃ col ∈ upTo 0 8, glyphBit c col row = true ∧
    q ∈ block (x + col) (y + row) 1 1}

/-- The characters with a glyph. -/
def Printable (c : Int8) : Prop := 32 ≤ c.toInt ∧ c.toInt ≤ 126

instance (c : Int8) : Decidable (Printable c) := inferInstanceAs (Decidable (_ ∧ _))

/-- The glyph is in the font, and has eight rows. -/
theorem glyph_eq {c : Int8} (hc : Printable c) :
    ∃ glyph, font8x8[(c.toInt - 32).toNat]? = some glyph ∧
    ∀ row < 8, ∃ bits, glyph[row]? = some bits ∧ ∀ i, bits.toNat.testBit i = glyphBit c i row := by
  obtain ⟨h1, h2⟩ := hc
  have hlt : (c.toInt - 32).toNat < font8x8.length := by
    rw [font8x8_length]
    omega
  have hlen := font8x8_rows _ (List.getElem_mem hlt)
  refine ⟨_, List.getElem?_eq_getElem hlt, fun row hrow => ?_⟩
  refine ⟨_, List.getElem?_eq_getElem (by omega), fun i => ?_⟩
  unfold glyphBit
  rw [List.getD_eq_getElem _ _ hlt, List.getD_eq_getElem _ _ (by omega)]

/-- A character is drawn in a cell that is cleared before. -/
theorem vgaDrawChar_refines (x y : Int) {c : Int8} (hc : Printable c) (color : UInt8) :
    Refines pixels (fun _ => True) (vgaDrawChar x y c color)
      (fun P => (P.paint (block (x * 8) (y * 8) 8 8) (lowBits 0)).paint (ink c (x * 8) (y * 8))
        (lowBits color)) := by
  obtain ⟨glyph, hglyph, hrows⟩ := glyph_eq hc
  have hcell := block_refines (x * 8) (y * 8) 0 8 0x00
  have hink : Refines pixels (fun _ => True)
      (loop (upTo 0 8) fun row v => glyph[row]?.bind fun bits =>
        loop (upTo 0 8) (fun col v =>
          if bits &&& UInt8.ofNat (1 <<< col) ≠ 0 then
            vgaDrawPixel (x * 8 + col) (y * 8 + row) color v
          else some v) v)
      (Picture.paint (ink c (x * 8) (y * 8)) (lowBits color)) := by
    apply Picture.loop_paint
    intro row hrow
    obtain ⟨bits, hbits, htest⟩ := hrows row (by have := mem_upTo.mp hrow; omega)
    rw [hbits]
    apply Picture.loop_paint
    intro col hcol
    have hlt : col < 8 := by have := mem_upTo.mp hcol; omega
    rw [← htest]
    by_cases hbit : bits.toNat.testBit col = true
    · refine (vgaDrawPixel_refines _ _ color).congr (fun v => if_pos ((testBit_iff hlt).mpr hbit))
        fun P => ?_
      congr 1
      ext q
      exact ⟨fun h => ⟨hbit, h⟩, fun h => h.2⟩
    · refine Refines.refl.congr (fun v => if_neg fun h => hbit ((testBit_iff hlt).mp h)) fun P => ?_
      funext a b
      exact (Picture.paint_not_mem fun h => hbit h.1).symm
  refine (hcell.bind hink).congr (fun v => ?_) fun P => ?_
  · unfold vgaDrawChar
    dsimp only
    rw [if_neg (by unfold Printable at hc; omega), hglyph]
    rfl
  · show (P.paint (block (x * 8) (y * 8 + (0 : Nat)) 8 ((8 : Nat) - (0 : Nat))) _).paint _ _ = _
    rw [Int.natCast_zero, Int.add_zero, Int.sub_zero]
    rfl

/-- Other characters are not drawn. -/
theorem vgaDrawChar_skip (x y : Int) {c : Int8} (hc : ¬ Printable c) (color : UInt8) (v : Vga) :
    vgaDrawChar x y c color v = some v := by
  unfold vgaDrawChar
  dsimp only
  exact if_pos (by unfold Printable at hc; omega)

end Pixels

/-! ## Results -/

/-- `vga_fill8x8` leaves the planes that 64 calls of `vga_draw_pixel` leave, in any order: the
    pixels of the block get the low four bits of the colour, and the others are unchanged. -/
theorem vga_fill8x8_eq {x y : Int} (hx : 0 ≤ x ∧ x + 8 ≤ 640) (hy : 0 ≤ y ∧ y + 8 ≤ 480)
    (color : UInt8) (v : Vga) {L : List (Nat × Nat)} (hL : ∀ q, q ∈ L ↔ q.1 < 8 ∧ q.2 < 8) :
    ∃ v₁ v₂, vgaFill8x8 x y color v = some v₁ ∧
      loop L (fun q => vgaDrawPixel (x + q.1) (y + q.2) color) v = some v₂ ∧
      v₁.planes = v₂.planes ∧
      ∀ (a : Fin 640) (b : Fin 480), pixels v₁ a b =
        if x ≤ a ∧ (a : Int) < x + 8 ∧ y ≤ b ∧ (b : Int) < y + 8 then lowBits color
        else pixels v a b := by
  obtain ⟨v₁, hv₁, -, hpix₁⟩ := vgaFill8x8_refines hx hy color v trivial
  obtain ⟨v₂, hv₂, -, hpix₂⟩ := Picture.loop_paint (fun q (_ : q ∈ L) =>
    vgaDrawPixel_refines (x + q.1) (y + q.2) color) v trivial
  have hblock : {q' | ∃ q ∈ L, q' ∈ block (x + q.1) (y + q.2) 1 1} = block x y 8 8 := by
    ext ⟨a, b⟩
    unfold block
    constructor
    · rintro ⟨q, hq, h1, h2, h3, h4⟩
      have := (hL q).mp hq
      dsimp only at h1 h2 h3 h4
      refine ⟨?_, ?_, ?_, ?_⟩ <;> dsimp only <;> omega
    · rintro ⟨h1, h2, h3, h4⟩
      dsimp only at h1 h2 h3 h4
      refine ⟨((a - x).toNat, (b - y).toNat), (hL _).mpr ⟨?_, ?_⟩, ?_, ?_, ?_, ?_⟩ <;>
        dsimp only <;> omega
  rw [hblock] at hpix₂
  refine ⟨v₁, v₂, hv₁, hv₂, Planes.picture_inj (hpix₁.trans hpix₂.symm), fun a b => ?_⟩
  rw [hpix₁]
  split
  · rename_i h
    exact Picture.paint_mem h
  · rename_i h
    exact Picture.paint_not_mem h

/-- A black screen. -/
def blackScreen : Vga := ⟨fun _ _ => 0, 0, fun _ => 0, 0, fun _ => 0⟩

/-- A block at the right edge that starts within a byte. -/
theorem vga_fill8x8_eq_edge : ∃ v₁ v₂, vgaFill8x8 631 0 0xF blackScreen = some v₁ ∧
    loop ((List.range 8).flatMap fun j => (List.range 8).map fun i => (i, j))
      (fun q => vgaDrawPixel (631 + q.1) (0 + q.2) 0xF) blackScreen = some v₂ ∧
    v₁.planes = v₂.planes := by
  obtain ⟨v₁, v₂, h₁, h₂, hplanes, -⟩ := @vga_fill8x8_eq 631 0 (by decide) (by decide) 0xF
    blackScreen ((List.range 8).flatMap fun j => (List.range 8).map fun i => (i, j))
    (fun ⟨a, b⟩ => by simp; tauto)
  exact ⟨v₁, v₂, h₁, h₂, hplanes⟩

/-- A character with a glyph is drawn in its cell, as far as that is on the screen, and nothing
    else changes; other characters change nothing. No byte outside the planes is touched. -/
theorem vga_draw_char_glyph (x y : Int) (c : Int8) (color : UInt8) (v : Vga) :
    ∃ v', vgaDrawChar x y c color v = some v' ∧
      (Printable c → ∀ (a : Fin 640) (b : Fin 480),
        (∀ i < 8, ∀ j < 8, (a : Int) = 8 * x + (i : Nat) → (b : Int) = 8 * y + (j : Nat) →
          pixels v' a b = if glyphBit c i j then lowBits color else fun _ => false) ∧
        (¬ (8 * x ≤ a ∧ (a : Int) < 8 * x + 8 ∧ 8 * y ≤ b ∧ (b : Int) < 8 * y + 8) →
          pixels v' a b = pixels v a b)) ∧
      (¬ Printable c → v' = v) := by
  by_cases hc : Printable c
  · obtain ⟨v', hv', -, hpix⟩ := vgaDrawChar_refines x y hc color v trivial
    refine ⟨v', hv', fun _ a b => ?_, fun h => absurd hc h⟩
    rw [hpix]
    refine ⟨fun i hi j hj ha hb => ?_, fun hout => ?_⟩
    · have hcell : ((a : ℤ), (b : ℤ)) ∈ block (x * 8) (y * 8) 8 8 := by
        refine ⟨?_, ?_, ?_, ?_⟩ <;> dsimp only <;> omega
      -- one row and one column of the glyph belong to the pixel
      have hbit : ((a : ℤ), (b : ℤ)) ∈ ink c (x * 8) (y * 8) ↔ glyphBit c i j = true := by
        constructor
        · rintro ⟨row, hrow, col, hcol, hbit, h1, h2, h3, h4⟩
          dsimp only at h1 h2 h3 h4
          rwa [show i = col by omega, show j = row by omega]
        · intro hbit
          refine ⟨j, mem_upTo.mpr (by omega), i, mem_upTo.mpr (by omega), hbit,
            ?_, ?_, ?_, ?_⟩ <;> dsimp only <;> omega
      split
      · rename_i h
        exact Picture.paint_mem (hbit.mpr h)
      · rename_i h
        refine (Picture.paint_not_mem fun h' => h (hbit.mp h')).trans
          ((Picture.paint_mem hcell).trans ?_)
        funext p
        exact Nat.zero_testBit _
    · have hcell : ((a : ℤ), (b : ℤ)) ∉ block (x * 8) (y * 8) 8 8 := by
        rintro ⟨h1, h2, h3, h4⟩
        dsimp only at h1 h2 h3 h4
        omega
      have hink : ((a : ℤ), (b : ℤ)) ∉ ink c (x * 8) (y * 8) := by
        rintro ⟨row, hrow, col, hcol, -, h1, h2, h3, h4⟩
        have := mem_upTo.mp hrow
        have := mem_upTo.mp hcol
        dsimp only at h1 h2 h3 h4
        omega
      exact (Picture.paint_not_mem hink).trans (Picture.paint_not_mem hcell)
  · exact ⟨v, vgaDrawChar_skip x y hc color v, fun h => absurd h hc, fun _ => rfl⟩

/-- The upper case A in the first cell. -/
theorem vga_draw_char_glyph_A : ∃ v', vgaDrawChar 0 0 65 0xF blackScreen = some v' ∧
    pixels v' 2 0 = lowBits 0xF ∧ pixels v' 0 0 = (fun _ => false) ∧
    pixels v' 8 0 = pixels blackScreen 8 0 := by
  obtain ⟨v', hv', hdraw, -⟩ := vga_draw_char_glyph 0 0 65 0xF blackScreen
  have hA : Printable 65 := by decide
  refine ⟨v', hv', ?_, ?_, (hdraw hA 8 0).2 (by decide)⟩
  · exact ((hdraw hA 2 0).1 2 (by decide) 0 (by decide) rfl rfl).trans (if_pos (by decide))
  · exact ((hdraw hA 0 0).1 0 (by decide) 0 (by decide) rfl rfl).trans (if_neg (by decide))

end LossOs.Drivers
