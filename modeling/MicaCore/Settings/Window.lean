import MicaCore.Data.Bytes
import MicaCore.Deploy.Version
import Mathlib.Data.Prod.Lex
import Mathlib.Order.Bounds.Basic

namespace MicaCore.Settings

open Data Deploy

/-- The day since 1970-01-01, the second of the day, and the rest of it. -/
structure DateTime where
  day : ℤ
  second : ℕ
  nano : ℕ
  second_lt : second < 86400
  nano_lt : nano < 2000000000

namespace DateTime

theorem nano_zero : 0 < 2000000000 := by decide

def key (t : DateTime) : ℤ ×ₗ (ℕ ×ₗ ℕ) := toLex (t.day, toLex (t.second, t.nano))

theorem key_injective : Function.Injective key := by
  rintro ⟨day, second, nano, h, h'⟩ ⟨day', second', nano', h₁, h₁'⟩ heq
  have hpair : (day, toLex (second, nano)) = (day', toLex (second', nano')) := toLex.injective heq
  obtain ⟨rfl, hrest⟩ := Prod.mk.inj hpair
  obtain ⟨rfl, rfl⟩ := Prod.mk.inj (toLex.injective hrest)
  rfl

instance : LinearOrder DateTime := LinearOrder.lift' key key_injective

def weekday (day : ℤ) : ℕ := ((day + 3) % 7).toNat

def week (day : ℤ) : ℤ := (day + 3) / 7

def hour (t : DateTime) : ℕ := t.second / 3600

def minute (t : DateTime) : ℕ := t.second / 60 % 60

def minutes (t : DateTime) : ℤ := t.day * 1440 + t.second / 60

theorem le_iff (t u : DateTime) : t ≤ u ↔ t.day < u.day ∨ t.day = u.day ∧
    (t.second < u.second ∨ t.second = u.second ∧ t.nano ≤ u.nano) := by
  change t.key ≤ u.key ↔ _
  rw [key, key, Prod.Lex.toLex_le_toLex, Prod.Lex.toLex_le_toLex]

end DateTime

def parseU32 (s : Text) : Option ℕ :=
  let digits := match s with
    | '+' :: rest => rest
    | s => s
  if digits.isEmpty || !digits.all asciiDigit || 2 ^ 32 ≤ decimal digits then none
  else some (decimal digits)

def minutesOfDay (clock : Text) : Option ℕ := do
  let (hours, minutes) ← splitOnce ':' clock
  guard ((utf8Bytes hours).length = 2 ∧ (utf8Bytes minutes).length = 2)
  let hours ← parseU32 hours
  let minutes ← parseU32 minutes
  guard (hours < 24 ∧ minutes < 60)
  pure (hours * 60 + minutes)

def dayIndex (day : String) : Option ℕ :=
  match day with
  | "mon" => some 0
  | "tue" => some 1
  | "wed" => some 2
  | "thu" => some 3
  | "fri" => some 4
  | "sat" => some 5
  | "sun" => some 6
  | _ => none

def weekMinutes : ℕ := 7 * 1440

def minutesOfWeek (now : DateTime) : ℕ :=
  DateTime.weekday now.day * 1440 + now.hour * 60 + now.minute

structure MaintenanceWindow where
  days : List String
  start : Text
  stop : Text

namespace MaintenanceWindow

def openDays (w : MaintenanceWindow) : List ℕ :=
  if w.days.isEmpty then List.range 7 else w.days.filterMap dayIndex

def span (start stop : ℕ) : ℕ := if start < stop then stop - start else 1440 - start + stop

def contains (w : MaintenanceWindow) (now : DateTime) : Bool :=
  match minutesOfDay w.start, minutesOfDay w.stop with
  | some start, some stop => w.openDays.any fun day ↦
      (minutesOfWeek now + weekMinutes - (day * 1440 + start)) % weekMinutes < span start stop
  | _, _ => false

end MaintenanceWindow

def lastCrossing (clock : Text) (now : DateTime) : Option DateTime := do
  let minutes ← minutesOfDay clock
  if h : minutes < 1440 then
    let face : DateTime := ⟨now.day, minutes * 60, 0, by omega, by decide⟩
    if face ≤ now then some face else some { face with day := face.day - 1 }
  else none

variable {clock : Text} {minutes : ℕ}

theorem minutesOfDay_lt (h : minutesOfDay clock = some minutes) : minutes < 1440 := by
  simp only [minutesOfDay, Option.bind_eq_bind, Option.bind_eq_some_iff, Option.guard_eq_some',
    Option.pure_def, Option.some.injEq] at h
  obtain ⟨_, _, _, _, _, _, _, _, _, ⟨_, _⟩, rfl⟩ := h
  omega

theorem dayIndex_lt {day : String} {i : ℕ} (h : dayIndex day = some i) : i < 7 := by
  unfold dayIndex at h
  split at h <;> simp_all <;> omega

namespace DateTime

theorem week_add_weekday (day : ℤ) : 7 * week day + weekday day = day + 3 := by
  unfold week weekday
  omega

theorem weekday_lt (day : ℤ) : weekday day < 7 := by
  unfold weekday
  omega

theorem minutes_eq (t : DateTime) : t.minutes = week t.day * 10080 + minutesOfWeek t - 4320 := by
  have hday := week_add_weekday t.day
  unfold minutes minutesOfWeek hour minute
  omega

theorem minutesOfWeek_lt (t : DateTime) : minutesOfWeek t < 10080 := by
  have hday := weekday_lt t.day
  have hsecond := t.second_lt
  unfold minutesOfWeek hour minute
  omega

end DateTime

namespace MaintenanceWindow

def OpensOn (w : MaintenanceWindow) (day : ℤ) : Prop :=
  w.days = [] ∨ ∃ name ∈ w.days, dayIndex name = some (DateTime.weekday day)

def duration (start stop : ℕ) : ℤ :=
  if 0 < (stop : ℤ) - start then (stop : ℤ) - start else (stop : ℤ) - start + 24 * 60

theorem mem_openDays (w : MaintenanceWindow) (day : ℤ) :
    DateTime.weekday day ∈ w.openDays ↔ w.OpensOn day := by
  have hlt := DateTime.weekday_lt day
  cases hdays : w.days with
  | nil => simp [openDays, OpensOn, hdays, hlt]
  | cons name names => simp [openDays, OpensOn, hdays]

theorem lt_of_mem_openDays {w : MaintenanceWindow} {day : ℕ} (h : day ∈ w.openDays) : day < 7 := by
  unfold openDays at h
  split at h
  · exact List.mem_range.mp h
  · obtain ⟨name, _, hname⟩ := List.mem_filterMap.mp h
    exact dayIndex_lt hname

theorem span_eq_duration {start stop : ℕ} (h : start < 1440) :
    (span start stop : ℤ) = duration start stop := by
  unfold span duration
  split <;> split <;> omega

theorem offset_lt_iff {day start span : ℕ} {t : DateTime} (hday : day < 7) (hstart : start < 1440)
    (hspan : span ≤ 1440) :
    (minutesOfWeek t + weekMinutes - (day * 1440 + start)) % weekMinutes < span ↔
      ∃ d : ℤ, DateTime.weekday d = day ∧
        (DateTime.week d = DateTime.week t.day ∨ DateTime.week d = DateTime.week t.day - 1) ∧
        d * 1440 + start ≤ t.minutes ∧ t.minutes < d * 1440 + start + span := by
  have hnow := DateTime.minutesOfWeek_lt t
  have hmin := DateTime.minutes_eq t
  unfold weekMinutes
  constructor
  · intro hoff
    -- The day of that name in this week, or seven days before it when its opening is still to come.
    by_cases hle : day * 1440 + start ≤ minutesOfWeek t
    · refine ⟨7 * DateTime.week t.day + day - 3, ?_, Or.inl ?_, ?_, ?_⟩
      · unfold DateTime.weekday
        omega
      · rw [DateTime.week]
        omega
      · omega
      · omega
    · refine ⟨7 * (DateTime.week t.day - 1) + day - 3, ?_, Or.inr ?_, ?_, ?_⟩
      · unfold DateTime.weekday
        omega
      · rw [DateTime.week]
        omega
      · omega
      · omega
  · rintro ⟨d, rfl, hweek, hle, hlt⟩
    have hd := DateTime.week_add_weekday d
    rcases hweek with hweek | hweek
    · omega
    · omega

theorem span_le (start : ℕ) {stop : ℕ} (h : stop < 1440) : span start stop ≤ 1440 := by
  unfold span
  split <;> omega

theorem contains_iff (w : MaintenanceWindow) (t : DateTime) :
    w.contains t = true ↔ ∃ start stop, minutesOfDay w.start = some start ∧
      minutesOfDay w.stop = some stop ∧ ∃ d : ℤ, w.OpensOn d ∧
        (DateTime.week d = DateTime.week t.day ∨ DateTime.week d = DateTime.week t.day - 1) ∧
        d * 1440 + start ≤ t.minutes ∧ t.minutes < d * 1440 + start + duration start stop := by
  unfold contains
  split
  case h_1 start stop hstart hstop =>
    have hlt := minutesOfDay_lt hstart
    have hspan := span_le start (minutesOfDay_lt hstop)
    simp only [List.any_eq_true, decide_eq_true_eq, hstart, hstop, Option.some.injEq,
      exists_and_left, exists_eq_left', ← span_eq_duration hlt]
    constructor
    · rintro ⟨day, hmem, hoff⟩
      obtain ⟨d, rfl, hd⟩ := (offset_lt_iff (lt_of_mem_openDays hmem) hlt hspan).mp hoff
      exact ⟨d, (mem_openDays w d).mp hmem, hd⟩
    · rintro ⟨d, hopens, hd⟩
      exact ⟨_, (mem_openDays w d).mpr hopens,
        (offset_lt_iff (DateTime.weekday_lt d) hlt hspan).mpr ⟨d, rfl, hd⟩⟩
  case h_2 hnone =>
    simp only [Bool.false_eq_true, false_iff]
    rintro ⟨start, stop, hstart, hstop, _⟩
    exact hnone start stop hstart hstop

end MaintenanceWindow

def crossings (minutes : ℕ) : Set DateTime := {u | u.second = minutes * 60 ∧ u.nano = 0}

theorem lastCrossing_eq (h : minutesOfDay clock = some minutes)
    (t : DateTime) : ∃ r, lastCrossing clock t = some r ∧ r ∈ crossings minutes ∧ r ≤ t ∧
      t.day - 1 ≤ r.day ∧ (r.day < t.day → t.second < minutes * 60) := by
  have hlt := minutesOfDay_lt h
  by_cases hle : t.second < minutes * 60
  · refine ⟨⟨t.day - 1, minutes * 60, 0, by omega, by decide⟩, ?_, ⟨rfl, rfl⟩, ?_, le_rfl, fun _ ↦ hle⟩
    · have hface : ¬ (⟨t.day, minutes * 60, 0, by omega, by decide⟩ : DateTime) ≤ t := by
        rw [DateTime.le_iff]
        simp only
        omega
      simp [lastCrossing, h, hlt, hface]
    · rw [DateTime.le_iff]
      exact Or.inl (by simp)
  · have hface : (⟨t.day, minutes * 60, 0, by omega, by decide⟩ : DateTime) ≤ t := by
      rw [DateTime.le_iff]
      refine Or.inr ⟨rfl, ?_⟩
      have hnano := Nat.zero_le t.nano
      simp only
      omega
    refine ⟨⟨t.day, minutes * 60, 0, by omega, by decide⟩, ?_, ⟨rfl, rfl⟩, hface, ?_, ?_⟩
    · simp [lastCrossing, h, hlt, hface]
    · exact Int.sub_le_self _ (by decide)
    · exact fun hday ↦ absurd hday (lt_irrefl _)

theorem isGreatest_lastCrossing (h : minutesOfDay clock = some minutes) (t : DateTime) :
    ∃ r, lastCrossing clock t = some r ∧ IsGreatest {u | u ∈ crossings minutes ∧ u ≤ t} r := by
  obtain ⟨r, hr, hcross, hle, hday, hearly⟩ := lastCrossing_eq h t
  refine ⟨r, hr, ⟨hcross, hle⟩, ?_⟩
  rintro u ⟨⟨husec, hunano⟩, hut⟩
  obtain ⟨hrsec, hrnano⟩ := hcross
  rw [DateTime.le_iff] at hut ⊢
  omega

def clockFace (hour minute : ℕ) : Text :=
  [Nat.digitChar (hour / 10), Nat.digitChar (hour % 10), ':',
    Nat.digitChar (minute / 10), Nat.digitChar (minute % 10)]

theorem digitChar_spec : ∀ n < 10, asciiDigit (Nat.digitChar n) = true ∧
    (Nat.digitChar n).toNat = 48 + n := by
  decide

theorem parseU32_digits {m n : ℕ} (hm : m < 10) (hn : n < 10) :
    parseU32 [Nat.digitChar m, Nat.digitChar n] = some (10 * m + n) := by
  obtain ⟨hdm, htm⟩ := digitChar_spec m hm
  obtain ⟨hdn, htn⟩ := digitChar_spec n hn
  have hplus : Nat.digitChar m ≠ '+' := by
    intro heq
    rw [heq] at htm
    exact absurd htm (by simp; omega)
  have hvalue : decimal [Nat.digitChar m, Nat.digitChar n] = 10 * m + n := by
    simp only [decimal, List.foldl_cons, List.foldl_nil, htm, htn]
    simp
  rw [parseU32, hvalue]
  · simp [hdm, hdn]
    omega
  · simp [hplus]

theorem minutesOfDay_clockFace {hour minute : ℕ} (hhour : hour < 24) (hminute : minute < 60) :
    minutesOfDay (clockFace hour minute) = some (hour * 60 + minute) := by
  have hbytes : ∀ m < 10, ∀ n < 10, (utf8Bytes [Nat.digitChar m, Nat.digitChar n]).length = 2 := by
    intro m hm n hn
    rw [utf8Bytes_eq_map, List.length_map]
    · rfl
    · simp [digitChar_spec m hm, digitChar_spec n hn]
      omega
  have hcolon : ∀ n < 10, ':' ≠ Nat.digitChar n := by decide
  have hsplit : splitOnce ':' (clockFace hour minute) =
      some ([Nat.digitChar (hour / 10), Nat.digitChar (hour % 10)],
        [Nat.digitChar (minute / 10), Nat.digitChar (minute % 10)]) := by
    refine splitOnce_append (a := [_, _]) _ ?_
    simp [hcolon (hour / 10) (by omega), hcolon (hour % 10) (by omega)]
  rw [minutesOfDay, hsplit]
  simp only [Option.bind_eq_bind, Option.bind_some]
  rw [hbytes _ (by omega) _ (by omega), hbytes _ (by omega) _ (by omega),
    parseU32_digits (by omega) (by omega), parseU32_digits (by omega) (by omega)]
  have hour_eq : 10 * (hour / 10) + hour % 10 = hour := by omega
  have minute_eq : 10 * (minute / 10) + minute % 10 = minute := by omega
  simp [hour_eq, minute_eq, hhour, hminute]

/-- A window is open on the minutes that follow its starts, and the last crossing of a clock
face is the greatest not after now. -/
theorem calendar (t : DateTime) :
    (∀ w : MaintenanceWindow, w.contains t = true ↔
      ∃ start stop, minutesOfDay w.start = some start ∧ minutesOfDay w.stop = some stop ∧
        ∃ d : ℤ, w.OpensOn d ∧
          (DateTime.week d = DateTime.week t.day ∨ DateTime.week d = DateTime.week t.day - 1) ∧
          d * 1440 + start ≤ t.minutes ∧
          t.minutes < d * 1440 + start + MaintenanceWindow.duration start stop) ∧
    (∀ clock minutes, minutesOfDay clock = some minutes →
      ∃ r, lastCrossing clock t = some r ∧ IsGreatest {u | u ∈ crossings minutes ∧ u ≤ t} r) ∧
    (∀ hour minute, hour < 24 → minute < 60 →
      minutesOfDay (clockFace hour minute) = some (hour * 60 + minute)) :=
  ⟨fun w ↦ w.contains_iff t, fun _ _ h ↦ isGreatest_lastCrossing h t,
    fun _ _ ↦ minutesOfDay_clockFace⟩

theorem calendar_monday :
    let t : DateTime := ⟨4, 1800, 0, by decide, by decide⟩
    let w : MaintenanceWindow := ⟨["sun"], clockFace 23 0, clockFace 1 0⟩
    w.contains t = true ∧
    (∃ start stop, minutesOfDay w.start = some start ∧ minutesOfDay w.stop = some stop ∧
      ∃ d : ℤ, w.OpensOn d ∧
        (DateTime.week d = DateTime.week t.day ∨ DateTime.week d = DateTime.week t.day - 1) ∧
        d * 1440 + start ≤ t.minutes ∧
        t.minutes < d * 1440 + start + MaintenanceWindow.duration start stop) ∧
    ∃ r, lastCrossing (clockFace 23 0) t = some r ∧
      IsGreatest {u | u ∈ crossings (23 * 60 + 0) ∧ u ≤ t} r := by
  intro t w
  have hcontains : w.contains t = true := by decide
  obtain ⟨hwindow, hcrossing, hclock⟩ := calendar t
  exact ⟨hcontains, (hwindow w).1 hcontains, hcrossing _ _ (hclock 23 0 (by decide) (by decide))⟩

end MicaCore.Settings
