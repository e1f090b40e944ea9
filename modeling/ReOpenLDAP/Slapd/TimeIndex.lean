import ReOpenLDAP.Lib.Bytes
import ReOpenLDAP.Slapd.TimeNormalize

/-!
# Slapd.TimeIndex

Ordered index keys of GeneralizedTime: 40 bits, the days in 675ths above the seconds of the day.
-/

namespace ReOpenLDAP
namespace Slapd

open Bytes Calendar Cmp Decimal List

/-- `struct lutil_tm` without the microseconds, which go into no key. -/
structure LutilTm where
  tm_year : ℤ
  tm_mon : ℤ
  tm_mday : ℤ
  tm_hour : ℤ
  tm_min : ℤ
  tm_sec : ℤ

/-- `struct lutil_timet` without the microseconds. -/
structure LutilTimet where
  tt_sec : ℤ
  tt_gsec : ℤ

def lutilParsetime (atm : List Char) : Option LutilTm :=
  if (atm.takeWhile Char.isDigit).length < 14 then none
  else
    let d (i : ℕ) : ℤ := value (atm.getD i '\x00')
    let tm_year := ((d 0 * 10 + d 1) * 10 + d 2) * 10 + d 3 - 1900
    let tm_mon := d 4 * 10 + d 5
    if tm_mon < 1 ∨ tm_mon > 12 then none
    else
      let tm_mday := d 6 * 10 + d 7
      if tm_mday < 1 ∨ tm_mday > 31 then none
      else
        let tm_hour := d 8 * 10 + d 9
        if tm_hour < 0 ∨ tm_hour > 23 then none
        else
          let tm_min := d 10 * 10 + d 11
          if tm_min < 0 ∨ tm_min > 59 then none
          else
            let tm_sec := d 12 * 10 + d 13
            if tm_sec < 0 ∨ tm_sec > 61 then none
            else
              let ptr := atm.drop 14
              let ptr := if ptr.head? = some '.' then ptr.tail.dropWhile Char.isDigit else ptr
              if ptr.head? ≠ some 'Z' then none else some ⟨tm_year, tm_mon - 1, tm_mday, tm_hour, tm_min, tm_sec⟩

def moffset (tm_mon : ℤ) : ℤ := [0, 31, 59, 90, 120, 151, 181, 212, 243, 273, 304, 334].getD tm_mon.toNat 0

def u32 (x : ℤ) : ℤ := x % 2 ^ 32

/-- `lutil_tm2time`; `tt_sec` is an `unsigned int`. -/
def lutilTm2time (tm : LutilTm) : LutilTimet :=
  if tm.tm_year = -1900 ∧ tm.tm_mon = 0 ∧ tm.tm_mday = 1 ∧ tm.tm_hour = 0 ∧ tm.tm_min = 0 ∧ tm.tm_sec = 0 then ⟨0, 0⟩
  else
    let tt_sec := u32 (tm.tm_year - 70)
    let tt_sec := u32 (tt_sec * 365)
    let tt_sec := u32 (tt_sec + (tm.tm_year - 69) / 4)
    let tt_sec := u32 (tt_sec + moffset tm.tm_mon)
    let tt_sec := if tm.tm_year % 4 = 0 ∧ tm.tm_mon > 1 then u32 (tt_sec + 1) else tt_sec
    let tt_sec := u32 (tt_sec + (tm.tm_mday - 1))
    let tt_sec := u32 (tt_sec * 675)
    let tt_gsec := tt_sec / 2 ^ 25
    let tt_sec := u32 (tt_sec - tt_gsec * 2 ^ 25)
    let sec := (tm.tm_hour * 60 + tm.tm_min) * 60 + tm.tm_sec
    let tt_sec := u32 (tt_sec * 2 ^ 7)
    ⟨u32 (tt_sec + sec), tt_gsec⟩

/-- The five bytes of `tmp`. -/
def timeKey (tt : LutilTimet) : List ℕ := (tt.tt_gsec % 256).toNat :: beBytes 4 tt.tt_sec.toNat

def generalizedTimeIndexer (values : List (List Char)) : List (List ℕ) :=
  values.filterMap fun v => (lutilParsetime v).map fun tm => timeKey (lutilTm2time tm)

def generalizedTimeFilter (value : List Char) : Option (List ℕ) :=
  if 10 ≤ value.length then (lutilParsetime value).map fun tm => timeKey (lutilTm2time tm) else none

/-! ## Days and seconds -/

namespace GeneralizedTime

def fullYear (n : GeneralizedTime) : ℤ := n.century * 100 + n.year

def monthOffset (leap : Bool) (m : ℕ) : ℤ := moffset m + if leap && decide (1 < m) then 1 else 0

def julianDay (n : GeneralizedTime) : ℤ :=
  (n.fullYear - 1970) * 365 + (n.fullYear - 1969) / 4 + monthOffset (decide (n.fullYear % 4 = 0)) n.month + n.day

def secondOfDay (n : GeneralizedTime) : ℤ := ((n.hour : ℕ) * 60 + n.rest.minutes) * 60 + n.rest.seconds

def seconds (n : GeneralizedTime) : ℤ := n.julianDay * 86400 + n.secondOfDay

/-- The second of the day reaches over a multiple of `2 ^ 32`. -/
def Crosses (n : GeneralizedTime) : Prop := 2 ^ 32 ≤ n.julianDay * 86400 % 2 ^ 32 + n.secondOfDay

instance (n : GeneralizedTime) : Decidable n.Crosses := inferInstanceAs (Decidable (_ ≤ _))

def First (n : GeneralizedTime) : Prop := n.utcMinute = 0 ∧ n.rest.seconds = 0

def KeysInOrder (a b : GeneralizedTime) : Prop :=
  a.First ∨ ((a.fullYear < 1970 ↔ b.fullYear < 1970) ∧ (b.Crosses → a.Crosses ∨ a.seconds + 2 ^ 32 ≤ b.seconds))

theorem monthOffset_le : ∀ leap : Bool, ∀ m < 12, 0 ≤ monthOffset leap m ∧
    monthOffset leap m + monthDays leap m ≤ 365 + if leap then 1 else 0 := by decide

theorem monthOffset_mono : ∀ leap : Bool, ∀ m < 12, ∀ m' < 12, m < m' →
    monthOffset leap m + monthDays leap m ≤ monthOffset leap m' := by decide

theorem monthDays_leap : ∀ leap : Bool, ∀ m < 12, monthDays leap m ≤ monthDays true m := by decide

theorem day_lt_julian (n : GeneralizedTime) : (n.day : ℤ) < monthDays (decide (n.fullYear % 4 = 0)) n.month := by
  have hd := n.day_lt
  rw [monthLength_of_lt _ (by omega) (by omega), Int.toNat_natCast] at hd
  change _ < monthDays (isLeap n.fullYear) _ at hd
  by_cases h : n.fullYear % 4 = 0
  · rw [decide_eq_true h]
    exact hd.trans_le (monthDays_leap _ _ n.month.isLt)
  · have hl : isLeap n.fullYear = false := by simp [isLeap, h]
    rw [decide_eq_false h, ← hl]
    exact hd

theorem dayOfYear (n : GeneralizedTime) : 0 ≤ monthOffset (decide (n.fullYear % 4 = 0)) n.month + n.day ∧
    monthOffset (decide (n.fullYear % 4 = 0)) n.month + n.day < 365 + if n.fullYear % 4 = 0 then 1 else 0 := by
  have hd := n.day_lt_julian
  obtain ⟨h0, hle⟩ := monthOffset_le (decide (n.fullYear % 4 = 0)) n.month n.month.isLt
  simp only [decide_eq_true_eq] at hle
  omega

variable {n a b : GeneralizedTime}

theorem julianDay_lt_of_year {n' : GeneralizedTime} (h : n.fullYear < n'.fullYear) : n.julianDay < n'.julianDay := by
  have hy := n.dayOfYear.2
  have hy' := n'.dayOfYear.1
  unfold julianDay
  split_ifs at hy <;> omega

theorem julianDay_lt_of_month {n' : GeneralizedTime} (hy : n.fullYear = n'.fullYear) (hm : (n.month : ℕ) < n'.month) :
    n.julianDay < n'.julianDay := by
  have hd := n.day_lt_julian
  have hmono := monthOffset_mono (decide (n.fullYear % 4 = 0)) n.month n.month.isLt n'.month n'.month.isLt hm
  unfold julianDay
  rw [← hy]
  omega

theorem cmp_julianDay (n n' : GeneralizedTime) : cmp n.julianDay n'.julianDay =
    (cmp n.fullYear n'.fullYear).then ((cmp (n.month : ℕ) n'.month).then (cmp n.day n'.day)) := by
  rcases lt_trichotomy n.fullYear n'.fullYear with hy | hy | hy
  · rw [cmp_eq_lt_iff _ _ |>.mpr hy, Ordering.lt_then, cmp_eq_lt_iff]
    exact julianDay_lt_of_year hy
  · rw [cmp_eq_eq_iff _ _ |>.mpr hy, Ordering.eq_then]
    rcases lt_trichotomy (n.month : ℕ) n'.month with hm | hm | hm
    · rw [cmp_eq_lt_iff _ _ |>.mpr hm, Ordering.lt_then, cmp_eq_lt_iff]
      exact julianDay_lt_of_month hy hm
    · rw [cmp_eq_eq_iff _ _ |>.mpr hm, Ordering.eq_then, julianDay, julianDay, hy, hm, cmp_add_left, cmp_natCast]
    · rw [cmp_eq_gt_iff _ _ |>.mpr hm, Ordering.gt_then, cmp_eq_gt_iff]
      exact julianDay_lt_of_month hy.symm hm
  · rw [cmp_eq_gt_iff _ _ |>.mpr hy, Ordering.gt_then, cmp_eq_gt_iff]
    exact julianDay_lt_of_year hy

theorem julianDay_range (n : GeneralizedTime) : (n.julianDay < 0 ↔ n.fullYear < 1970) ∧ -719543 ≤ n.julianDay ∧
    n.julianDay ≤ 2932957 := by
  have h := n.dayOfYear
  have hy : n.fullYear < 10000 := by unfold fullYear; omega
  have hy0 : 0 ≤ n.fullYear := by unfold fullYear; omega
  unfold julianDay
  split_ifs at h <;> omega

theorem minutes_range (r : Rest) : 0 ≤ r.minutes ∧ r.minutes < 60 ∧ 0 ≤ r.seconds ∧ r.seconds ≤ 60 := by
  cases r with
  | hour => simp [Rest.minutes, Rest.seconds]
  | minute m => simp [Rest.minutes, Rest.seconds]
  | second m s =>
    simp [Rest.minutes, Rest.seconds]
    omega

theorem secondOfDay_range (n : GeneralizedTime) : 0 ≤ n.secondOfDay ∧ n.secondOfDay ≤ 86400 := by
  have h := minutes_range n.rest
  unfold secondOfDay
  omega

theorem seconds_range (n : GeneralizedTime) : (n.seconds < 0 → n.fullYear < 1970) ∧ -62168515200 ≤ n.seconds ∧
    n.seconds ≤ 253407571200 := by
  have hj := n.julianDay_range
  have hs := n.secondOfDay_range
  unfold seconds
  omega

theorem cmp_dayNumber_julian (n n' : GeneralizedTime) :
    cmp (dayNumber n.fullYear n.month n.day) (dayNumber n'.fullYear n'.month n'.day) = cmp n.julianDay n'.julianDay := by
  have h := @cmp_dayNumber n.fullYear n.month n.day n'.fullYear n'.month n'.day ⟨by omega, by omega⟩ ⟨by omega, n.day_lt⟩
    ⟨by omega, by omega⟩ ⟨by omega, n'.day_lt⟩
  rw [h, cmp_julianDay, cmp_natCast, cmp_natCast]

theorem Normal.utcMinute_eq (h : n.Normal) : n.utcMinute =
    (dayNumber n.fullYear n.month n.day * 24 + (n.hour : ℕ)) * 60 + n.rest.minutes := by
  unfold utcMinute
  rw [h.utc, Zone.minutes, sub_zero]
  rfl

theorem Normal.seconds_le (ha : a.Normal) (hb : b.Normal) (h : cmp a.dateText b.dateText ≠ .gt) :
    a.julianDay ≤ b.julianDay ∧ a.seconds ≤ b.seconds ∧ (b.First → a.First) := by
  have hday := cmp_dayNumber_julian a b
  have hra := minutes_range a.rest
  have hrb := minutes_range b.rest
  have hera := ha.inEra.1
  have hlex : a.utcMinute < b.utcMinute ∨ a.utcMinute = b.utcMinute ∧ a.rest.seconds ≤ b.rest.seconds := by
    rw [cmp_dateText ha hb] at h
    rcases lt_trichotomy a.utcMinute b.utcMinute with hm | hm | hm
    · exact .inl hm
    · rw [cmp_eq_eq_iff _ _ |>.mpr hm, Ordering.eq_then, ne_eq, cmp_eq_gt_iff, not_lt] at h
      exact .inr ⟨hm, h⟩
    · rw [cmp_eq_gt_iff _ _ |>.mpr hm] at h
      exact absurd rfl h
  have hfirst : b.First → a.First := by
    rintro ⟨hm, hs⟩
    exact ⟨by omega, by omega⟩
  rw [ha.utcMinute_eq, hb.utcMinute_eq] at hlex
  unfold seconds secondOfDay
  rcases lt_trichotomy (dayNumber a.fullYear a.month a.day) (dayNumber b.fullYear b.month b.day) with hd | hd | hd
  · rw [cmp_eq_lt_iff _ _ |>.mpr hd, eq_comm, cmp_eq_lt_iff] at hday
    exact ⟨by omega, by omega, hfirst⟩
  · rw [cmp_eq_eq_iff _ _ |>.mpr hd, eq_comm, cmp_eq_eq_iff] at hday
    exact ⟨by omega, by omega, hfirst⟩
  · omega

/-- What `lutil_parsetime` reads. -/
def tm (n : GeneralizedTime) : LutilTm :=
  ⟨n.fullYear - 1900, n.month, n.day + 1, (n.hour : ℕ), n.rest.minutes, n.rest.seconds⟩

theorem twoDigits_num {v : ℕ} (h : v < 100) : (value (digit (v / 10)) * 10 + value (digit (v % 10)) : ℤ) = v := by
  rw [value_digit (by omega), value_digit (by omega)]
  omega

theorem Normal.text_scan (h : n.Normal) : 14 ≤ (n.text.takeWhile Char.isDigit).length ∧
    (if (n.text.drop 14).head? = some '.' then (n.text.drop 14).tail.dropWhile Char.isDigit else n.text.drop 14).head? =
      some 'Z' := by
  have hl := monthLength_le (n.century * 100 + n.year) n.month
  have hd := n.day_lt
  obtain ⟨m, s, hr⟩ := h.second
  have hdigits : ∀ c ∈ n.dateText, c.isDigit = true := by
    rw [dateText, hr]
    simp only [Rest.text, forall_mem_append]
    refine ⟨⟨⟨⟨⟨?_, ?_⟩, ?_⟩, ?_⟩, ?_⟩, ?_, ?_⟩ <;> exact digits_twoDigits (by omega)
  have htext : n.text = n.dateText ++ (n.fractionText ++ ['Z']) := by rw [h.text_eq, append_assoc]
  rw [htext, takeWhile_append_of_pos hdigits, drop_left' h.length_date]
  refine ⟨by rw [length_append, h.length_date]; omega, ?_⟩
  cases hf : n.fraction with
  | none =>
    have hft : n.fractionText = [] := by simp [fractionText, hf]
    rw [hft]
    rfl
  | some f =>
    have hft : n.fractionText = '.' :: f.digits := by simp [fractionText, hf, h.mark f hf]
    rw [hft, cons_append, List.head?_cons, if_pos rfl, tail_cons, dropWhile_append_of_pos f.digits_ok]
    rfl

theorem lutilParsetime_text (h : n.Normal) : lutilParsetime n.text = some n.tm := by
  have hl := monthLength_le (n.century * 100 + n.year) n.month
  have hd := n.day_lt
  obtain ⟨hlen, hend⟩ := h.text_scan
  obtain ⟨m, s, hr⟩ := h.second
  have htext : n.text = twoDigits n.century ++ twoDigits n.year ++ twoDigits (n.month + 1) ++ twoDigits (n.day + 1) ++
      twoDigits n.hour ++ (twoDigits m ++ twoDigits s) ++ n.fractionText ++ n.zone.text := by rw [text, hr]; rfl
  have hyear : (((value (n.text.getD 0 '\x00') * 10 + value (n.text.getD 1 '\x00')) * 10 + value (n.text.getD 2 '\x00')) * 10 +
      value (n.text.getD 3 '\x00') : ℤ) = n.fullYear := by
    have hc := twoDigits_num n.century.isLt
    have hy := twoDigits_num n.year.isLt
    rw [htext]
    change ((value (digit (n.century / 10)) * 10 + value (digit (n.century % 10))) * 10 + value (digit (n.year / 10)) : ℤ) * 10 +
      value (digit (n.year % 10)) = _
    unfold fullYear
    omega
  have hmon : (value (n.text.getD 4 '\x00') * 10 + value (n.text.getD 5 '\x00') : ℤ) = (n.month + 1 : ℕ) := by
    rw [htext]
    exact twoDigits_num (by omega)
  have hday : (value (n.text.getD 6 '\x00') * 10 + value (n.text.getD 7 '\x00') : ℤ) = (n.day + 1 : ℕ) := by
    rw [htext]
    exact twoDigits_num (by omega)
  have hhour : (value (n.text.getD 8 '\x00') * 10 + value (n.text.getD 9 '\x00') : ℤ) = (n.hour : ℕ) := by
    rw [htext]
    exact twoDigits_num (by omega)
  have hmin : (value (n.text.getD 10 '\x00') * 10 + value (n.text.getD 11 '\x00') : ℤ) = (m : ℕ) := by
    rw [htext]
    exact twoDigits_num (by omega)
  have hsec : (value (n.text.getD 12 '\x00') * 10 + value (n.text.getD 13 '\x00') : ℤ) = (s : ℕ) := by
    rw [htext]
    exact twoDigits_num (by omega)
  unfold lutilParsetime
  rw [if_neg (by omega)]
  dsimp only
  rw [hyear, hmon, if_neg (by omega), hday, if_neg (by omega), hhour, if_neg (by omega), hmin, if_neg (by omega), hsec,
    if_neg (by omega), hend, if_neg (by simp), tm, hr]
  simp [Rest.minutes, Rest.seconds]

theorem first_iff (h : n.Normal) : n.First ↔ n.tm.tm_year = -1900 ∧ n.tm.tm_mon = 0 ∧ n.tm.tm_mday = 1 ∧
    n.tm.tm_hour = 0 ∧ n.tm.tm_min = 0 ∧ n.tm.tm_sec = 0 := by
  have hr := minutes_range n.rest
  unfold First tm
  rw [h.utcMinute_eq]
  constructor
  · rintro ⟨hm, hs⟩
    have hle := @dayNumber_le 0 n.fullYear n.month n.day (by unfold fullYear; omega) (by omega) (by omega)
    have hcmp := @cmp_dayNumber n.fullYear n.month n.day 0 0 0 ⟨by omega, by omega⟩ ⟨by omega, n.day_lt⟩ ⟨le_refl 0, by omega⟩
      ⟨le_refl 0, by decide⟩
    have hzero : dayNumber 0 0 0 = 0 := by decide
    rw [(cmp_eq_eq_iff _ _).mpr (show dayNumber n.fullYear n.month n.day = dayNumber 0 0 0 by omega), eq_comm,
      Ordering.then_eq_eq, Ordering.then_eq_eq, cmp_eq_eq_iff, cmp_eq_eq_iff, cmp_eq_eq_iff] at hcmp
    exact ⟨by simp only; omega, hcmp.2.1, by simp only; omega, by simp only; omega, by simp only; omega, hs⟩
  · rintro ⟨hy, hmon, hday, hh, hm, hs⟩
    have hzero : dayNumber 0 0 0 = 0 := by decide
    simp only at hy hmon hday hh hm hs
    rw [show n.fullYear = 0 by omega, hmon, show (n.day : ℤ) = 0 by omega, hzero, hh, hm]
    exact ⟨rfl, hs⟩

theorem split_days (k sec : ℤ) : k % 2 ^ 32 / 2 ^ 25 = k * 2 ^ 7 % 2 ^ 39 / 2 ^ 32 ∧
    u32 (u32 (u32 (k % 2 ^ 32 - k % 2 ^ 32 / 2 ^ 25 * 2 ^ 25) * 2 ^ 7) + sec) = (k * 2 ^ 7 + sec) % 2 ^ 32 := by
  unfold u32
  constructor <;> omega

theorem lutilTm2time_tm (h : n.Normal) (hfirst : ¬ n.First) :
    lutilTm2time n.tm = ⟨n.seconds % 2 ^ 32, n.julianDay * 86400 % 2 ^ 39 / 2 ^ 32⟩ := by
  unfold lutilTm2time
  rw [if_neg ((first_iff h).not.mp hfirst)]
  have hleap : (n.tm.tm_year % 4 = 0 ∧ n.tm.tm_mon > 1) ↔
      (decide (n.fullYear % 4 = 0) && decide (1 < (n.month : ℕ))) = true := by
    simp [tm]
    omega
  have hdays : u32 (u32 ((if n.tm.tm_year % 4 = 0 ∧ n.tm.tm_mon > 1 then
      u32 (u32 (u32 (u32 (u32 (n.tm.tm_year - 70) * 365) + (n.tm.tm_year - 69) / 4) + moffset n.tm.tm_mon) + 1) else
      u32 (u32 (u32 (u32 (n.tm.tm_year - 70) * 365) + (n.tm.tm_year - 69) / 4) + moffset n.tm.tm_mon)) + (n.tm.tm_mday - 1)) * 675) =
      n.julianDay * 675 % 2 ^ 32 := by
    have hmon : moffset n.tm.tm_mon = moffset (n.month : ℕ) := rfl
    have hyear : n.tm.tm_year = n.fullYear - 1900 := rfl
    have hday : n.tm.tm_mday = n.day + 1 := rfl
    have hq : (n.tm.tm_year - 69) / 4 = (n.fullYear - 1969) / 4 := by omega
    unfold julianDay monthOffset u32
    rw [hq]
    generalize (n.fullYear - 1969) / 4 = q
    by_cases hl : n.tm.tm_year % 4 = 0 ∧ n.tm.tm_mon > 1
    · rw [if_pos hl, if_pos (hleap.mp hl), hmon]
      omega
    · rw [if_neg hl, if_neg (hleap.not.mp hl), hmon]
      omega
  dsimp only
  rw [hdays]
  obtain ⟨hhigh, hlow⟩ := split_days (n.julianDay * 675) n.secondOfDay
  have hseconds : n.seconds = n.julianDay * 675 * 2 ^ 7 + n.secondOfDay := by unfold seconds; ring
  rw [hseconds, ← hlow, hhigh]
  congr 3
  ring

theorem cmp_timeKey {t t' : LutilTimet} (hg : 0 ≤ t.tt_gsec ∧ t.tt_gsec < 256) (hs : 0 ≤ t.tt_sec ∧ t.tt_sec < 2 ^ 32)
    (hg' : 0 ≤ t'.tt_gsec ∧ t'.tt_gsec < 256) (hs' : 0 ≤ t'.tt_sec ∧ t'.tt_sec < 2 ^ 32) :
    cmp (timeKey t) (timeKey t') = cmp (t.tt_gsec * 2 ^ 32 + t.tt_sec) (t'.tt_gsec * 2 ^ 32 + t'.tt_sec) := by
  have hhigh : cmp (t.tt_gsec % 256).toNat (t'.tt_gsec % 256).toNat = cmp t.tt_gsec t'.tt_gsec :=
    cmp_congr (by omega) (by omega)
  have hlow : cmp t.tt_sec.toNat t'.tt_sec.toNat = cmp t.tt_sec t'.tt_sec := cmp_congr (by omega) (by omega)
  unfold timeKey
  rw [cmp_cons, cmp_beBytes (by omega) (by omega), hhigh, hlow, cmp_mul_add hs.1 hs.2 hs'.1 hs'.2]

theorem tm2time_range (h : n.Normal) : (0 ≤ (lutilTm2time n.tm).tt_gsec ∧ (lutilTm2time n.tm).tt_gsec < 256) ∧
    0 ≤ (lutilTm2time n.tm).tt_sec ∧ (lutilTm2time n.tm).tt_sec < 2 ^ 32 := by
  by_cases hf : n.First
  · rw [lutilTm2time, if_pos ((first_iff h).mp hf)]
    exact ⟨⟨le_refl 0, by decide⟩, le_refl 0, by decide⟩
  · rw [lutilTm2time_tm h hf]
    dsimp only
    omega

theorem key_number (h : n.Normal) (hf : ¬ n.First) : (lutilTm2time n.tm).tt_gsec * 2 ^ 32 + (lutilTm2time n.tm).tt_sec =
      n.seconds - (if n.Crosses then 2 ^ 32 else 0) + if n.fullYear < 1970 then 2 ^ 39 else 0 := by
  obtain ⟨hneg, hlow, hhigh⟩ := n.julianDay_range
  have hs := n.secondOfDay_range
  rw [lutilTm2time_tm h hf]
  unfold Crosses seconds
  dsimp only
  by_cases hy : n.fullYear < 1970
  · have hj := hneg.mpr hy
    rw [if_pos hy]
    split_ifs <;> omega
  · have hj := hneg.not.mpr hy
    rw [if_neg hy]
    split_ifs <;> omega

theorem key_le_iff (ha : a.Normal) (hb : b.Normal) (h : cmp a.dateText b.dateText ≠ .gt) :
    timeKey (lutilTm2time a.tm) ≤ timeKey (lutilTm2time b.tm) ↔ KeysInOrder a b := by
  obtain ⟨hday, hsec, hfirst⟩ := ha.seconds_le hb h
  obtain ⟨hga, hsa⟩ := tm2time_range ha
  obtain ⟨hgb, hsb⟩ := tm2time_range hb
  rw [← cmp_ne_gt, cmp_timeKey hga hsa hgb hsb, ne_eq, cmp_eq_gt_iff, not_lt]
  by_cases hf : a.First
  · have hzero : lutilTm2time a.tm = ⟨0, 0⟩ := if_pos ((first_iff ha).mp hf)
    rw [hzero]
    refine iff_of_true ?_ (.inl hf)
    dsimp only
    omega
  have hfb : ¬ b.First := fun hfb => hf (hfirst hfb)
  have hra := a.seconds_range
  have hrb := b.seconds_range
  have hyears : b.fullYear < 1970 → a.fullYear < 1970 := fun hy =>
    a.julianDay_range.1.mp (hday.trans_lt (b.julianDay_range.1.mpr hy))
  rw [key_number ha hf, key_number hb hfb, KeysInOrder, or_iff_right hf]
  constructor
  · intro hle
    have hy : a.fullYear < 1970 ↔ b.fullYear < 1970 := by
      refine ⟨fun hya => ?_, hyears⟩
      by_contra hyb
      rw [if_pos hya, if_neg hyb] at hle
      split_ifs at hle <;> omega
    refine ⟨hy, fun hcb => or_iff_not_imp_left.mpr fun hca => ?_⟩
    rw [if_pos hcb, if_neg hca, if_congr hy rfl rfl] at hle
    omega
  · rintro ⟨hy, hc⟩
    rw [if_congr hy rfl rfl]
    by_cases hcb : b.Crosses
    · rcases hc hcb with hca | hfar
      · rw [if_pos hca, if_pos hcb]
        omega
      · rw [if_pos hcb]
        split_ifs <;> omega
    · rw [if_neg hcb]
      split_ifs <;> omega

theorem Normal.date_le (ha : a.Normal) (hb : b.Normal)
    (h : generalizedTimeOrderingMatch false a.text b.text ≤ 0) : cmp a.dateText b.dateText ≠ .gt := by
  have hla := ha.length_body
  have hlb := hb.length_body
  intro hgt
  have hbody : ∀ k, 14 ≤ k → cmp (a.text.take k) (b.text.take k) = .gt := by
    intro k hk
    have hta : a.text.take k = a.dateText ++ (a.fractionText ++ a.zone.text).take (k - 14) := by
      rw [text_eq_date, append_assoc, take_append, ha.length_date, take_of_length_le (by rw [ha.length_date]; omega)]
    have htb : b.text.take k = b.dateText ++ (b.fractionText ++ b.zone.text).take (k - 14) := by
      rw [text_eq_date, append_assoc, take_append, hb.length_date, take_of_length_le (by rw [hb.length_date]; omega)]
    rw [hta, htb, cmp_append (ha.length_date.trans hb.length_date.symm), hgt]
    rfl
  have hmin : 14 ≤ min a.text.length b.text.length - 1 := by
    rw [ha.text_eq, hb.text_eq]
    simp only [length_append, length_singleton] at hla hlb ⊢
    omega
  unfold generalizedTimeOrderingMatch at h
  dsimp only at h
  rw [Sync.memcmp_eq_cmp, hbody _ hmin] at h
  have hone : (1 : ℤ) ≤ 0 := h
  omega

end GeneralizedTime

open GeneralizedTime

/-- Index keys are in the order of the times exactly if no wrap-around and no lost carry is between them. -/
theorem time_key_le_iff {a b : GeneralizedTime} (ha : a.Normal) (hb : b.Normal)
    (h : generalizedTimeOrderingMatch false a.text b.text ≤ 0) :
    ∃ ka kb, generalizedTimeIndexer [a.text] = [ka] ∧ generalizedTimeFilter b.text = some kb ∧
      (ka ≤ kb ↔ KeysInOrder a b) := by
  have hlen : 10 ≤ b.text.length := le_trans (by omega) (hb.text_scan.1.trans (List.takeWhile_prefix _).length_le)
  refine ⟨_, _, ?_, ?_, key_le_iff ha hb (ha.date_le hb h)⟩
  · simp [generalizedTimeIndexer, lutilParsetime_text ha]
  · rw [generalizedTimeFilter, if_pos hlen, lutilParsetime_text hb, Option.map_some]

/-- 2106-02-06, the day of the code's calendar that `2 ^ 32` seconds after the start of 1970 are in. -/
def carryDay (hour : Fin 24) : GeneralizedTime := ⟨21, 6, 1, 5, by decide, hour, .second 0 0, none, .utc⟩

theorem carryDay_normal (hour : Fin 24) : (carryDay hour).Normal := ⟨⟨0, 0, rfl⟩, rfl, nofun, rfl⟩

theorem time_key_le_iff_carryDay : ∃ ka kb, generalizedTimeIndexer [(carryDay 7).text] = [ka] ∧
    generalizedTimeFilter (carryDay 12).text = some kb ∧ (ka ≤ kb ↔ KeysInOrder (carryDay 7) (carryDay 12)) :=
  time_key_le_iff (carryDay_normal 7) (carryDay_normal 12) (by decide)

/-- The key of noon is below that of midnight. -/
theorem time_key_carry_lost : (carryDay 0).text = "21060206000000Z".toList ∧ (carryDay 12).text = "21060206120000Z".toList ∧
    generalizedTimeOrderingMatch false (carryDay 0).text (carryDay 12).text ≤ 0 ∧
    ¬ ∃ ka kb, generalizedTimeIndexer [(carryDay 0).text] = [ka] ∧ generalizedTimeFilter (carryDay 12).text = some kb ∧
      ka ≤ kb := by
  have hindexer : generalizedTimeIndexer [(carryDay 0).text] = [[0, 255, 255, 165, 0]] := by decide
  have hfilter : generalizedTimeFilter (carryDay 12).text = some [0, 0, 0, 77, 192] := by decide
  refine ⟨by decide, by decide, by decide, ?_⟩
  rintro ⟨ka, kb, ha, hb, hle⟩
  rw [hindexer, singleton_inj] at ha
  rw [hfilter, Option.some.injEq] at hb
  rw [← ha, ← hb, ← cmp_ne_gt] at hle
  exact hle (by decide)

end Slapd
end ReOpenLDAP
