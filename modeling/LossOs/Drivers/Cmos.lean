/-
  `drivers/cmos.c`: the date and time of the real-time clock.

  The clock goes on while its registers are read one by one. `read_rtc` reads them until two passes
  agree, and converts what it has. The clock is a parameter: `IsRtc` says what its registers show
  at a tick, and that three passes see one tick at most. `read_rtc_snapshot`: what comes out is the
  time of one tick during the call, but that noon and midnight of a 12-hour clock are exchanged.
-/
import LossOs.Drivers.Disk

namespace LossOs.Drivers

open LossOs.Lib

def CURRENT_YEAR : UInt32 := 2025
def cmos_address : UInt16 := 0x70
def cmos_data : UInt16 := 0x71

/-- The variables of the driver. -/
structure Rtc where
  second : UInt8
  minute : UInt8
  hour : UInt8
  day : UInt8
  month : UInt8
  century : UInt8
  year : UInt32
  deriving DecidableEq

section Driver

variable {σ : Type*} (dev : Ports σ)

/-- `get_RTC_register`. -/
def getRtcRegister (reg : UInt8) (s : σ) : UInt8 × σ :=
  dev.in8 cmos_data (dev.out8 cmos_address reg s)

/-- `while (get_update_in_progress_flag());` -/
def updateWait : Nat → σ → Option σ :=
  poll fun s => ((getRtcRegister dev 0x0A s).1 &&& 0x80 == 0, (getRtcRegister dev 0x0A s).2)

/-- The registers, from `second` on. -/
def readRegisters (centuryRegister : UInt8) (t : Rtc) (s : σ) : Rtc × σ :=
  let second := getRtcRegister dev 0x00 s
  let minute := getRtcRegister dev 0x02 second.2
  let hour := getRtcRegister dev 0x04 minute.2
  let day := getRtcRegister dev 0x07 hour.2
  let month := getRtcRegister dev 0x08 day.2
  let year := getRtcRegister dev 0x09 month.2
  let t := ⟨second.1, minute.1, hour.1, day.1, month.1, t.century, year.1.toUInt32⟩
  if centuryRegister ≠ 0 then
    let century := getRtcRegister dev centuryRegister year.2
    ({ t with century := century.1 }, century.2)
  else (t, year.2)

/-- One pass: wait for the update, and read. -/
def rtcPass (centuryRegister : UInt8) (t : Rtc) (fuel : Nat) (s : σ) : Option (Rtc × σ) :=
  (updateWait dev fuel s).map (readRegisters dev centuryRegister t)

/-- `do ... while`: passes until one gives what the last one gave; `last_year` is a byte. -/
def untilTwice (centuryRegister : UInt8) (fuel : Nat) : Nat → Rtc → σ → Option (Rtc × σ)
  | 0, _, _ => none
  | n + 1, last, s => (rtcPass dev centuryRegister last fuel s).bind fun r =>
      if { last with year := last.year.toUInt8.toUInt32 } = r.1 then some r
      else untilTwice centuryRegister fuel n r.1 r.2

/-- Convert BCD to binary values. -/
def fromBcd (x : UInt8) : UInt8 := (x &&& 0x0F) + x / 16 * 10

/-- The hour, with its top bit. -/
def fromBcdHour (x : UInt8) : UInt8 := ((x &&& 0x0F) + (x &&& 0x70) / 16 * 10) ||| (x &&& 0x80)

/-- Convert 12 hour clock to 24 hour clock if necessary. -/
def to24Hour (registerB x : UInt8) : UInt8 :=
  if registerB &&& 0x02 = 0 ∧ x &&& 0x80 ≠ 0 then ((x &&& 0x7F) + 12) % 24 else x

/-- The full (4-digit) year. -/
def fullYear (centuryRegister century : UInt8) (year : UInt32) : UInt32 :=
  if centuryRegister ≠ 0 then year + century.toUInt32 * 100
  else
    let year := year + CURRENT_YEAR / 100 * 100
    if year < CURRENT_YEAR then year + 100 else year

/-- The conversions at the end of `read_rtc`. -/
def convertRtc (centuryRegister registerB : UInt8) (t : Rtc) : Rtc :=
  let t := if registerB &&& 0x04 = 0 then
      { second := fromBcd t.second
        minute := fromBcd t.minute
        hour := fromBcdHour t.hour
        day := fromBcd t.day
        month := fromBcd t.month
        century := if centuryRegister ≠ 0 then fromBcd t.century else t.century
        year := (t.year &&& 0x0F) + t.year / 16 * 10 }
    else t
  let t := { t with hour := to24Hour registerB t.hour }
  { t with year := fullYear centuryRegister t.century t.year }

/-- `read_rtc`. -/
def readRtc (centuryRegister : UInt8) (t : Rtc) (fuel : Nat) (s : σ) : Option (Rtc × σ) :=
  (rtcPass dev centuryRegister t fuel s).bind fun r =>
    (untilTwice dev centuryRegister fuel fuel r.1 r.2).map fun r =>
      (convertRtc centuryRegister (getRtcRegister dev 0x0B r.2).1 r.1,
        (getRtcRegister dev 0x0B r.2).2)

end Driver

/-! ## The clock -/

/-- What it is. -/
structure DateTime where
  second : Nat
  minute : Nat
  hour : Nat
  day : Nat
  month : Nat
  year : Nat

/-- In range. -/
structure DateTime.Valid (d : DateTime) : Prop where
  second : d.second < 60
  minute : d.minute < 60
  hour : d.hour < 24
  day : d.day < 32
  month : d.month < 13
  year : d.year < 10000

/-- A number in a register, in BCD if register B has bit 2 clear. -/
def encode (registerB : UInt8) (n : Nat) : UInt8 :=
  if registerB &&& 0x04 = 0 then UInt8.ofNat (n / 10 * 16 + n % 10) else UInt8.ofNat n

/-- The hour; without bit 1 from 1 to 12, and the top bit after noon. -/
def encodeHour (registerB : UInt8) (h : Nat) : UInt8 :=
  if registerB &&& 0x02 = 0 then
    encode registerB (if h % 12 = 0 then 12 else h % 12) ||| (if 12 ≤ h then 0x80 else 0)
  else encode registerB h

/-- What a register shows at date and time `d`. -/
def DateTime.register (registerB : UInt8) (d : DateTime) (reg : UInt8) : UInt8 :=
  if reg = 0x00 then encode registerB d.second
  else if reg = 0x02 then encode registerB d.minute
  else if reg = 0x04 then encodeHour registerB d.hour
  else if reg = 0x07 then encode registerB d.day
  else if reg = 0x08 then encode registerB d.month
  else if reg = 0x09 then encode registerB (d.year % 100)
  else encode registerB (d.year / 100)

/-- What a pass finds that sees no tick; without a century register the century stays. -/
def DateTime.found (registerB centuryRegister : UInt8) (d : DateTime) (century : UInt8) : Rtc :=
  ⟨d.register registerB 0x00, d.register registerB 0x02, d.register registerB 0x04,
    d.register registerB 0x07, d.register registerB 0x08,
    if centuryRegister ≠ 0 then d.register registerB centuryRegister else century,
    (d.register registerB 0x09).toUInt32⟩

/-- The registers that are read: those of the date and time, and the one of the century. -/
def IsTime (centuryRegister reg : UInt8) : Prop :=
  reg ∈ [0x00, 0x02, 0x04, 0x07, 0x08, 0x09] ∨ reg = centuryRegister

/-- A pass leads from one state to another. -/
def PassTo {σ : Type*} (dev : Ports σ) (centuryRegister : UInt8) (s s' : σ) : Prop :=
  ∃ fuel t t', rtcPass dev centuryRegister t fuel s = some (t', s')

/-- A real-time clock that shows `clock k` at tick `k`. `time` counts the ticks, `index` is the
    register that is selected, and `update` bounds the wait for an update. Three passes take less
    than a second. -/
structure IsRtc {σ : Type*} (dev : Ports σ) (centuryRegister registerB : UInt8)
    (clock : Nat → DateTime) (time : σ → Nat) (index : σ → UInt8) (update : σ → Nat) : Prop where
  select : ∀ s reg, index (dev.out8 cmos_address reg s) = reg ∧
    time s ≤ time (dev.out8 cmos_address reg s)
  goesOn : ∀ s, time s ≤ time (dev.in8 cmos_data s).2
  shows : ∀ s, IsTime centuryRegister (index s) →
    (dev.in8 cmos_data s).1 = (clock (time s)).register registerB (index s)
  mode : ∀ s, index s = 0x0B → (dev.in8 cmos_data s).1 = registerB
  updates : ∀ s, (getRtcRegister dev 0x0A s).1 &&& 0x80 ≠ 0 →
    update (getRtcRegister dev 0x0A s).2 < update s
  slow : ∀ s s₁ s₂ s₃, PassTo dev centuryRegister s s₁ → PassTo dev centuryRegister s₁ s₂ →
    PassTo dev centuryRegister s₂ s₃ → time s₃ ≤ time s + 1
  ticks : ∀ k, (clock (k + 1)).second ≠ (clock k).second
  valid : ∀ k, (clock k).Valid
  century : centuryRegister = 0 ∨ centuryRegister = 0x32

/-- What `read_rtc` makes of date and time `d`: noon and midnight of a 12-hour clock are
    exchanged. -/
def DateTime.shown (registerB centuryRegister : UInt8) (d : DateTime) (century : UInt8) : Rtc where
  second := UInt8.ofNat d.second
  minute := UInt8.ofNat d.minute
  hour := UInt8.ofNat
    (if registerB &&& 0x02 = 0 ∧ d.hour % 12 = 0 then (d.hour + 12) % 24 else d.hour)
  day := UInt8.ofNat d.day
  month := UInt8.ofNat d.month
  century := if centuryRegister ≠ 0 then UInt8.ofNat (d.year / 100) else century
  year := UInt32.ofNat d.year

/-! ## Conversion -/

section Conversion

variable {registerB centuryRegister c : UInt8} {d : DateTime} {n : Nat}

theorem fromBcd_bcd : ∀ n < 100, fromBcd (UInt8.ofNat (n / 10 * 16 + n % 10)) = UInt8.ofNat n := by
  decide

theorem bcd_year : ∀ n < 100, ((UInt8.ofNat (n / 10 * 16 + n % 10)).toUInt32 &&& 0x0F) +
    (UInt8.ofNat (n / 10 * 16 + n % 10)).toUInt32 / 16 * 10 = UInt32.ofNat n := by
  decide

theorem fromBcd_encode (hb : registerB &&& 0x04 = 0) (hn : n < 100) :
    fromBcd (encode registerB n) = UInt8.ofNat n := by
  unfold encode
  rw [if_pos hb]
  exact fromBcd_bcd n hn

/-- The hour in BCD and in binary. -/
theorem hour_bcd (hb : registerB &&& 0x04 = 0) {h : Nat} (hh : h < 24) :
    to24Hour registerB (fromBcdHour (encodeHour registerB h)) =
      UInt8.ofNat (if registerB &&& 0x02 = 0 ∧ h % 12 = 0 then (h + 12) % 24 else h) := by
  unfold encodeHour encode to24Hour
  by_cases h12 : registerB &&& 0x02 = 0
  · simp only [hb, h12, if_true, true_and]
    revert h
    decide
  · simp only [hb, h12, if_true, if_false, false_and]
    revert h
    decide

theorem hour_binary (hb : ¬registerB &&& 0x04 = 0) {h : Nat} (hh : h < 24) :
    to24Hour registerB (encodeHour registerB h) =
      UInt8.ofNat (if registerB &&& 0x02 = 0 ∧ h % 12 = 0 then (h + 12) % 24 else h) := by
  unfold encodeHour encode to24Hour
  by_cases h12 : registerB &&& 0x02 = 0
  · simp only [hb, h12, if_true, if_false, true_and]
    revert h
    decide
  · simp only [hb, h12, if_false, false_and]

/-- With a century register, or in the century that `CURRENT_YEAR` begins. -/
theorem fullYear_shown (hd : d.Valid)
    (hyear : centuryRegister = 0 → 2025 ≤ d.year ∧ d.year < 2125) :
    fullYear centuryRegister (if centuryRegister ≠ 0 then UInt8.ofNat (d.year / 100) else c)
      (UInt32.ofNat (d.year % 100)) = UInt32.ofNat d.year := by
  have hlt := hd.year
  unfold fullYear
  by_cases hc : centuryRegister = 0
  · obtain ⟨hlo, hhi⟩ := hyear hc
    have hbase : (UInt32.ofNat (d.year % 100) + CURRENT_YEAR / 100 * 100).toNat =
        d.year % 100 + 2000 := by
      rw [UInt32.toNat_add, UInt32.toNat_ofNat']
      show (d.year % 100 % 2 ^ 32 + 2000) % 2 ^ 32 = _
      omega
    rw [if_neg (not_not.mpr hc)]
    dsimp only
    refine UInt32.toNat_inj.mp ?_
    generalize UInt32.ofNat (d.year % 100) + CURRENT_YEAR / 100 * 100 = y at hbase ⊢
    have hcmp : y < CURRENT_YEAR ↔ y.toNat < 2025 := UInt32.lt_iff_toNat_lt
    rw [hbase] at hcmp
    by_cases hlate : y < CURRENT_YEAR
    · have hlt' := hcmp.mp hlate
      rw [if_pos hlate, UInt32.toNat_add, hbase, UInt32.toNat_ofNat']
      show (d.year % 100 + 2000 + 100) % 2 ^ 32 = _
      omega
    · have hge := mt hcmp.mpr hlate
      rw [if_neg hlate, hbase, UInt32.toNat_ofNat']
      omega
  · rw [if_pos hc, if_pos hc]
    refine UInt32.toNat_inj.mp ?_
    rw [UInt32.toNat_add, UInt32.toNat_mul, UInt8.toNat_toUInt32, UInt8.toNat_ofNat',
      UInt32.toNat_ofNat', UInt32.toNat_ofNat']
    show (d.year % 100 % 2 ^ 32 + d.year / 100 % 2 ^ 8 * 100 % 2 ^ 32) % 2 ^ 32 = _
    have hcentury : d.year / 100 % 2 ^ 8 = d.year / 100 := Nat.mod_eq_of_lt (by omega)
    rw [hcentury]
    omega

/-- Of one tick the conversions make its date and time. -/
theorem convert_found (hd : d.Valid) (hc : centuryRegister = 0 ∨ centuryRegister = 0x32)
    (hyear : centuryRegister = 0 → 2025 ≤ d.year ∧ d.year < 2125) :
    convertRtc centuryRegister registerB (d.found registerB centuryRegister c) =
      d.shown registerB centuryRegister c := by
  have hsecond : d.second < 100 := hd.second.trans (by decide)
  have hminute : d.minute < 100 := hd.minute.trans (by decide)
  have hday : d.day < 100 := hd.day.trans (by decide)
  have hmonth : d.month < 100 := hd.month.trans (by decide)
  have hcentury : d.year / 100 < 100 := Nat.div_lt_of_lt_mul hd.year
  have hyy : d.year % 100 < 100 := Nat.mod_lt _ (by decide)
  have hreg : centuryRegister ≠ 0 →
      d.register registerB centuryRegister = encode registerB (d.year / 100) := fun hne => by
    rw [hc.resolve_left hne]
    rfl
  have hfull := fullYear_shown (c := c) hd hyear
  unfold convertRtc
  by_cases hb : registerB &&& 0x04 = 0
  · have hfound : (if centuryRegister ≠ 0 then
        fromBcd (d.found registerB centuryRegister c).century else
        (d.found registerB centuryRegister c).century) =
        if centuryRegister ≠ 0 then UInt8.ofNat (d.year / 100) else c := by
      by_cases hne : centuryRegister ≠ 0
      · rw [if_pos hne, if_pos hne]
        show fromBcd (if centuryRegister ≠ 0 then _ else _) = _
        rw [if_pos hne, hreg hne, fromBcd_encode hb hcentury]
      · rw [if_neg hne, if_neg hne]
        exact if_neg hne
    rw [if_pos hb]
    dsimp only
    rw [hfound]
    show Rtc.mk (fromBcd (encode registerB d.second)) (fromBcd (encode registerB d.minute))
      (to24Hour registerB (fromBcdHour (encodeHour registerB d.hour)))
      (fromBcd (encode registerB d.day)) (fromBcd (encode registerB d.month)) _
      (fullYear _ _ (((encode registerB (d.year % 100)).toUInt32 &&& 0x0F) +
        (encode registerB (d.year % 100)).toUInt32 / 16 * 10)) = _
    rw [fromBcd_encode hb hsecond, fromBcd_encode hb hminute, hour_bcd hb hd.hour,
      fromBcd_encode hb hday, fromBcd_encode hb hmonth]
    unfold encode
    rw [if_pos hb, bcd_year _ hyy, hfull]
    rfl
  · have hfound : (d.found registerB centuryRegister c).century =
        if centuryRegister ≠ 0 then UInt8.ofNat (d.year / 100) else c := by
      show (if centuryRegister ≠ 0 then _ else _) = _
      by_cases hne : centuryRegister ≠ 0
      · rw [if_pos hne, if_pos hne, hreg hne]
        exact if_neg hb
      · rw [if_neg hne, if_neg hne]
    have hyear32 : (encode registerB (d.year % 100)).toUInt32 = UInt32.ofNat (d.year % 100) := by
      unfold encode
      rw [if_neg hb]
      refine UInt32.toNat_inj.mp ?_
      rw [UInt8.toNat_toUInt32, UInt8.toNat_ofNat', UInt32.toNat_ofNat']
      omega
    rw [if_neg hb]
    dsimp only
    rw [hfound]
    show Rtc.mk (encode registerB d.second) (encode registerB d.minute)
      (to24Hour registerB (encodeHour registerB d.hour))
      (encode registerB d.day) (encode registerB d.month) _
      (fullYear _ _ (encode registerB (d.year % 100)).toUInt32) = _
    rw [hour_binary hb hd.hour, hyear32, hfull]
    unfold encode DateTime.shown
    simp only [if_neg hb]

end Conversion

/-! ## Passes -/

section Passes

variable {σ : Type*} {dev : Ports σ} {centuryRegister registerB c : UInt8} {clock : Nat → DateTime}
  {time : σ → Nat} {index : σ → UInt8} {update : σ → Nat} {s : σ} {last : Rtc} {r r' : Rtc × σ}
  {k k' : Nat}

/-- A register is read at one of the ticks of the read. -/
theorem getRtcRegister_shows (h : IsRtc dev centuryRegister registerB clock time index update)
    {reg : UInt8} (hreg : IsTime centuryRegister reg) (s : σ) :
    ∃ k, time s ≤ k ∧ k ≤ time (getRtcRegister dev reg s).2 ∧
      (getRtcRegister dev reg s).1 = (clock k).register registerB reg := by
  obtain ⟨hindex, hle⟩ := h.select s reg
  refine ⟨_, hle, h.goesOn _, ?_⟩
  have hshows := h.shows (dev.out8 cmos_address reg s) (by rw [hindex]; exact hreg)
  rw [hindex] at hshows
  exact hshows

theorem getRtcRegister_time (h : IsRtc dev centuryRegister registerB clock time index update)
    (reg : UInt8) (s : σ) : time s ≤ time (getRtcRegister dev reg s).2 :=
  (h.select s reg).2.trans (h.goesOn _)

/-- What pass `r` from `s` on has seen: the second of tick `k`, and all of tick `k` if no other
    came before its end. -/
structure Saw (dev : Ports σ) (centuryRegister registerB : UInt8) (clock : Nat → DateTime)
    (time : σ → Nat) (c : UInt8) (s : σ) (r : Rtc × σ) (k : Nat) : Prop where
  pass : PassTo dev centuryRegister s r.2
  start : time s ≤ k
  stop : k ≤ time r.2
  second : r.1.second = encode registerB (clock k).second
  quiet : time r.2 = k → r.1 = (clock k).found registerB centuryRegister c
  century : centuryRegister = 0 → r.1.century = c
  year : r.1.year.toUInt8.toUInt32 = r.1.year

theorem updateWait_ends (h : IsRtc dev centuryRegister registerB clock time index update) (s : σ) :
    Ends (fun n => updateWait dev n s) fun s' => time s ≤ time s' := by
  refine ends_poll (I := fun s' => time s ≤ time s') update (fun s' hs _ => ?_)
    (fun s' hs hno => ?_) (Nat.le_refl _)
  · exact hs.trans (getRtcRegister_time h _ s')
  · exact ⟨hs.trans (getRtcRegister_time h _ s'), h.updates s' fun h0 => by simp [h0] at hno⟩

/-- The registers of a pass, each at its own tick. -/
theorem readRegisters_saw (h : IsRtc dev centuryRegister registerB clock time index update)
    (hlast : centuryRegister = 0 → last.century = c) (s : σ) :
    ∃ k, time s ≤ k ∧ k ≤ time (readRegisters dev centuryRegister last s).2 ∧
      (readRegisters dev centuryRegister last s).1.second = encode registerB (clock k).second ∧
      (time (readRegisters dev centuryRegister last s).2 = k →
        (readRegisters dev centuryRegister last s).1 =
          (clock k).found registerB centuryRegister c) ∧
      (centuryRegister = 0 → (readRegisters dev centuryRegister last s).1.century = c) ∧
      (readRegisters dev centuryRegister last s).1.year.toUInt8.toUInt32 =
        (readRegisters dev centuryRegister last s).1.year := by
  have htime : ∀ reg ∈ ([0x00, 0x02, 0x04, 0x07, 0x08, 0x09] : List UInt8),
      IsTime centuryRegister reg := fun reg hreg => Or.inl hreg
  obtain ⟨k₀, hs₀, he₀, hv₀⟩ := getRtcRegister_shows h (htime 0x00 (by decide)) s
  unfold readRegisters
  dsimp only
  generalize getRtcRegister dev 0x00 s = second at he₀ hv₀ ⊢
  obtain ⟨k₁, hs₁, he₁, hv₁⟩ := getRtcRegister_shows h (htime 0x02 (by decide)) second.2
  generalize getRtcRegister dev 0x02 second.2 = minute at he₁ hv₁ ⊢
  obtain ⟨k₂, hs₂, he₂, hv₂⟩ := getRtcRegister_shows h (htime 0x04 (by decide)) minute.2
  generalize getRtcRegister dev 0x04 minute.2 = hour at he₂ hv₂ ⊢
  obtain ⟨k₃, hs₃, he₃, hv₃⟩ := getRtcRegister_shows h (htime 0x07 (by decide)) hour.2
  generalize getRtcRegister dev 0x07 hour.2 = day at he₃ hv₃ ⊢
  obtain ⟨k₄, hs₄, he₄, hv₄⟩ := getRtcRegister_shows h (htime 0x08 (by decide)) day.2
  generalize getRtcRegister dev 0x08 day.2 = month at he₄ hv₄ ⊢
  obtain ⟨k₅, hs₅, he₅, hv₅⟩ := getRtcRegister_shows h (htime 0x09 (by decide)) month.2
  generalize getRtcRegister dev 0x09 month.2 = year at he₅ hv₅ ⊢
  have hyear : year.1.toUInt32.toUInt8.toUInt32 = year.1.toUInt32 := by
    rw [UInt8.toUInt8_toUInt32]
  refine ⟨k₀, hs₀, ?_⟩
  by_cases hc : centuryRegister ≠ 0
  · obtain ⟨k₆, hs₆, he₆, hv₆⟩ := getRtcRegister_shows h (Or.inr rfl) year.2
    rw [if_pos hc]
    generalize getRtcRegister dev centuryRegister year.2 = century at he₆ hv₆ ⊢
    dsimp only
    refine ⟨by omega, hv₀, fun hquiet => ?_, fun h0 => absurd h0 hc, hyear⟩
    have hquiet : time century.2 = k₀ := hquiet
    -- no tick since the second: all are of tick `k₀`
    obtain ⟨rfl, rfl, rfl, rfl, rfl, rfl⟩ :
      k₁ = k₀ ∧ k₂ = k₀ ∧ k₃ = k₀ ∧ k₄ = k₀ ∧ k₅ = k₀ ∧ k₆ = k₀ := by omega
    unfold DateTime.found
    rw [if_pos hc, hv₀, hv₁, hv₂, hv₃, hv₄, hv₅, hv₆]
  · rw [if_neg hc]
    dsimp only
    refine ⟨by omega, hv₀, fun hquiet => ?_, hlast, hyear⟩
    have hquiet : time year.2 = k₀ := hquiet
    obtain ⟨rfl, rfl, rfl, rfl, rfl⟩ : k₁ = k₀ ∧ k₂ = k₀ ∧ k₃ = k₀ ∧ k₄ = k₀ ∧ k₅ = k₀ := by omega
    unfold DateTime.found
    rw [if_neg hc, hv₀, hv₁, hv₂, hv₃, hv₄, hv₅, hlast (not_not.mp hc)]

theorem rtcPass_ends (h : IsRtc dev centuryRegister registerB clock time index update)
    (hlast : centuryRegister = 0 → last.century = c) (s : σ) :
    Ends (fun n => rtcPass dev centuryRegister last n s) fun r =>
      ∃ k, Saw dev centuryRegister registerB clock time c s r k := by
  have hpass : Ends (fun n => rtcPass dev centuryRegister last n s) fun r =>
      ∃ s', time s ≤ time s' ∧ r = readRegisters dev centuryRegister last s' := by
    refine ((updateWait_ends h s).bind fun s' hs' =>
      .of_eq (fun _ => rfl) ⟨s', hs', rfl⟩).mono_eq fun n => ?_
    exact Option.map_eq_bind
  refine hpass.reached.mono fun r hr => ?_
  obtain ⟨⟨s', hs', rfl⟩, n, hn⟩ := hr
  obtain ⟨k, hstart, hstop, hsecond, hquiet, hcentury, hyear⟩ := readRegisters_saw h hlast s'
  exact ⟨k, ⟨⟨n, last, _, hn⟩, hs'.trans hstart, hstop, hsecond, hquiet, hcentury, hyear⟩⟩

/-- Two passes see one tick at most, too. -/
theorem Saw.two_passes (h : IsRtc dev centuryRegister registerB clock time index update)
    (hr : Saw dev centuryRegister registerB clock time c s r k)
    (hr' : Saw dev centuryRegister registerB clock time c r.2 r' k') :
    time r'.2 ≤ time s + 1 := by
  obtain ⟨r'', ⟨k'', hr''⟩, -⟩ := rtcPass_ends (c := c) h hr'.century r'.2
  exact (hr''.start.trans hr''.stop).trans (h.slow _ _ _ _ hr.pass hr'.pass hr''.pass)

theorem encode_second {m n : Nat} (hm : m < 60) (hn : n < 60)
    (h : encode registerB m = encode registerB n) : m = n := by
  have heq : UInt8.ofNat m = UInt8.ofNat n := by
    by_cases hb : registerB &&& 0x04 = 0
    · rw [← fromBcd_encode hb (hm.trans (by decide)), h, fromBcd_encode hb (hn.trans (by decide))]
    · unfold encode at h
      rw [if_neg hb, if_neg hb] at h
      exact h
  have hnat := congrArg UInt8.toNat heq
  rw [UInt8.toNat_ofNat', UInt8.toNat_ofNat'] at hnat
  omega

/-- Two passes that agree have seen all of one tick. -/
theorem Saw.agree (h : IsRtc dev centuryRegister registerB clock time index update)
    (hr : Saw dev centuryRegister registerB clock time c s r k)
    (hr' : Saw dev centuryRegister registerB clock time c r.2 r' k') (heq : r.1 = r'.1) :
    r'.1 = (clock k).found registerB centuryRegister c := by
  have htwo := hr.two_passes h hr'
  have hsame : k' = k := by
    by_contra hne
    have hnext : k' = k + 1 := by
      have := hr.start
      have := hr.stop
      have := hr'.start
      have := hr'.stop
      omega
    have hsec := congrArg Rtc.second heq
    rw [hr.second, hr'.second, hnext] at hsec
    exact h.ticks k (encode_second (h.valid k).second (h.valid (k + 1)).second hsec).symm
  rw [← heq]
  refine hr.quiet (Nat.le_antisymm ?_ hr.stop)
  rw [← hsame]
  exact hr'.start

/-- Without a tick they agree. -/
theorem Saw.still (hr : Saw dev centuryRegister registerB clock time c s r k)
    (hr' : Saw dev centuryRegister registerB clock time c r.2 r' k') (h : time r'.2 ≤ time s) :
    r.1 = r'.1 := by
  have := hr.start
  have := hr.stop
  have := hr'.start
  have := hr'.stop
  rw [hr.quiet (by omega), hr'.quiet (by omega), show k' = k by omega]

/-- One more pass of the loop. -/
theorem untilTwice_ends {Q R : Rtc × σ → Prop} {m : Nat}
    (hpass : Ends (fun n => rtcPass dev centuryRegister last n s) Q)
    (hyear : last.year.toUInt8.toUInt32 = last.year)
    (hdone : ∀ r, Q r → last = r.1 → R r)
    (hmore : ∀ r, Q r → last ≠ r.1 →
      Ends (fun n => untilTwice dev centuryRegister n (n - (m + 1)) r.1 r.2) R) :
    Ends (fun n => untilTwice dev centuryRegister n (n - m) last s) R := by
  have hlast : { last with year := last.year.toUInt8.toUInt32 } = last := by rw [hyear]
  have hbody : Ends (fun n => (rtcPass dev centuryRegister last n s).bind fun r =>
      if last = r.1 then some r
      else untilTwice dev centuryRegister n (n - (m + 1)) r.1 r.2) R := by
    refine hpass.bind fun r hr => ?_
    by_cases heq : last = r.1
    · exact .of_eq (fun _ => if_pos heq) (hdone r hr heq)
    · exact (hmore r hr heq).mono_eq fun _ => if_neg heq
  refine hbody.of_le (m + 1) fun n hn => ?_
  obtain ⟨j, rfl⟩ := Nat.exists_eq_add_of_le' hn
  rw [show j + (m + 1) - m = j + 1 by omega, Nat.add_sub_cancel]
  show (rtcPass dev centuryRegister last (j + (m + 1)) s).bind _ = _
  rw [hlast]

/-- Four passes are enough: the tick that kept two apart is the only one for a while. -/
theorem untilTwice_found (h : IsRtc dev centuryRegister registerB clock time index update)
    (hr : Saw dev centuryRegister registerB clock time c s r k) :
    Ends (fun n => untilTwice dev centuryRegister n n r.1 r.2) fun r' =>
      ∃ k, time s ≤ k ∧ k ≤ time r'.2 ∧ r'.1 = (clock k).found registerB centuryRegister c := by
  refine untilTwice_ends (m := 0) (rtcPass_ends h hr.century r.2) hr.year ?_ ?_
  · rintro r₁ ⟨k₁, hr₁⟩ heq
    exact ⟨k, hr.start, (hr.stop.trans hr₁.start).trans hr₁.stop, hr.agree h hr₁ heq⟩
  rintro r₁ ⟨k₁, hr₁⟩ hne
  have htick : ¬time r₁.2 ≤ time s := mt (hr.still hr₁) hne
  refine untilTwice_ends (rtcPass_ends h hr₁.century r₁.2) hr₁.year ?_ ?_
  · rintro r₂ ⟨k₂, hr₂⟩ heq
    have := hr.start
    have := hr.stop
    have := hr₁.start
    exact ⟨k₁, by omega, (hr₁.stop.trans hr₂.start).trans hr₂.stop, hr₁.agree h hr₂ heq⟩
  rintro r₂ ⟨k₂, hr₂⟩ hne₁
  have htick₁ : ¬time r₂.2 ≤ time r.2 := mt (hr₁.still hr₂) hne₁
  have hthree := h.slow _ _ _ _ hr.pass hr₁.pass hr₂.pass
  refine untilTwice_ends (rtcPass_ends h hr₂.century r₂.2) hr₂.year ?_ ?_
  all_goals rintro r₃ ⟨k₃, hr₃⟩ heq
  · have := hr.start
    have := hr.stop
    have := hr₁.start
    have := hr₁.stop
    have := hr₂.start
    exact ⟨k₂, by omega, (hr₂.stop.trans hr₃.start).trans hr₃.stop, hr₂.agree h hr₃ heq⟩
  · -- the tick was in the second pass
    have hthree₁ := h.slow _ _ _ _ hr₁.pass hr₂.pass hr₃.pass
    have := hr.start
    have := hr.stop
    have := hr₂.start
    have := hr₂.stop
    exact absurd (hr₂.still hr₃ (by omega)) heq

/-- `read_rtc` comes to an end, and what it leaves in the variables is the date and time of one tick
    of the call. Without a century register the year is right until 2124. -/
theorem read_rtc_snapshot (h : IsRtc dev centuryRegister registerB clock time index update)
    (hyear : centuryRegister = 0 → ∀ k, 2025 ≤ (clock k).year ∧ (clock k).year < 2125)
    (t : Rtc) (s : σ) :
    Ends (fun n => readRtc dev centuryRegister t n s) fun r =>
      ∃ k, time s ≤ k ∧ k ≤ time r.2 ∧
        r.1 = (clock k).shown registerB centuryRegister t.century := by
  refine (rtcPass_ends (c := t.century) h (fun _ => rfl) s).bind fun r hr => ?_
  obtain ⟨k, hr⟩ := hr
  refine ((untilTwice_found h hr).bind fun r' hr' => .of_eq (fun _ => rfl) ?_).mono_eq fun n =>
    Option.map_eq_bind
  obtain ⟨k', hstart, hstop, hfound⟩ := hr'
  have hmode : (getRtcRegister dev 0x0B r'.2).1 = registerB := h.mode _ (h.select r'.2 0x0B).1
  refine ⟨k', hstart, hstop.trans (getRtcRegister_time h 0x0B r'.2), ?_⟩
  show convertRtc centuryRegister (getRtcRegister dev 0x0B r'.2).1 r'.1 = _
  rw [hmode, hfound]
  exact convert_found (h.valid k') h.century fun h0 => hyear h0 k'

end Passes

/-- A BCD clock that ticks with every 64th access. -/
def tickingTime (k : Nat) : DateTime := ⟨k % 60, k / 60 % 60, 12, 25, 6, 2026⟩

def tickingPorts : Ports (Nat × UInt8) where
  in8 _ s := (if s.2 = 0x0A then 0 else if s.2 = 0x0B then 0x02
    else (tickingTime (s.1 / 64)).register 0x02 s.2, (s.1 + 1, s.2))
  out8 port data s := if port = cmos_address then (s.1 + 1, data) else s
  in16 _ s := (0, s)
  out16 _ _ s := s

theorem tickingPorts_pass {s s' : Nat × UInt8} (h : PassTo tickingPorts 0 s s') :
    s'.1 = s.1 + 14 := by
  obtain ⟨fuel, t, t', hpass⟩ := h
  cases fuel with
  | zero => cases hpass
  | succ fuel =>
    have hwait : updateWait tickingPorts (fuel + 1) s = some (s.1 + 1 + 1, 0x0A) :=
      if_pos (show ((0 : UInt8) &&& 0x80 == 0) = true by decide)
    unfold rtcPass at hpass
    rw [hwait] at hpass
    cases hpass
    rfl

theorem isRtc_ticking : IsRtc tickingPorts 0 0x02 tickingTime (·.1 / 64) (·.2) fun _ => 0 where
  select s reg := ⟨rfl, Nat.div_le_div_right (Nat.le_succ s.1)⟩
  goesOn s := Nat.div_le_div_right (Nat.le_succ s.1)
  shows s hs := by
    obtain ⟨n, reg⟩ := s
    have hs : reg ∈ ([0x00, 0x02, 0x04, 0x07, 0x08, 0x09] : List UInt8) ∨ reg = 0 := hs
    have hne : reg ≠ 0x0A ∧ reg ≠ 0x0B := by
      refine ⟨?_, ?_⟩ <;> rintro rfl <;> exact absurd hs (by decide)
    show (if reg = 0x0A then _ else if reg = 0x0B then _ else _) = _
    rw [if_neg hne.1, if_neg hne.2]
  mode s hs := by
    obtain ⟨n, reg⟩ := s
    cases hs
    rfl
  updates _ h := absurd (show (0 : UInt8) &&& 0x80 = 0 from rfl) h
  slow s s₁ s₂ s₃ h₁ h₂ h₃ := by
    have := tickingPorts_pass h₁
    have := tickingPorts_pass h₂
    have := tickingPorts_pass h₃
    show s₃.1 / 64 ≤ s.1 / 64 + 1
    omega
  ticks k := by
    show (k + 1) % 60 ≠ k % 60
    omega
  valid k := by
    constructor
    all_goals unfold tickingTime
    all_goals dsimp only
    all_goals omega
  century := Or.inl rfl

/-- A tick within the first pass. -/
theorem read_rtc_snapshot_ticking :
    Ends (fun n => readRtc tickingPorts 0 ⟨0, 0, 0, 0, 0, 0, 0⟩ n (60, 0)) fun r =>
      ∃ k, 60 / 64 ≤ k ∧ k ≤ r.2.1 / 64 ∧ r.1 = (tickingTime k).shown 0x02 0 0 :=
  read_rtc_snapshot isRtc_ticking (fun _ _ => show 2025 ≤ 2026 ∧ 2026 < 2125 by decide)
    ⟨0, 0, 0, 0, 0, 0, 0⟩ (60, 0)

end LossOs.Drivers
