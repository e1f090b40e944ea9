import Mathlib.Tactic.IntervalCases
import Mathlib.Tactic.Ring
import ReOpenLDAP.Lib.Cmp

/-!
# Lib.Calendar

The proleptic Gregorian calendar. Months and days of a month count from 0; a month outside `0 .. 11` is one of another year.
-/

namespace ReOpenLDAP
namespace Calendar

open Cmp

def isLeap (y : ℤ) : Bool := decide (y % 4 = 0 ∧ (y % 100 ≠ 0 ∨ y % 400 = 0))

def yearLength (y : ℤ) : ℤ := if isLeap y then 366 else 365

def yearStart (y : ℤ) : ℤ := 365 * y + (y + 3) / 4 - (y + 99) / 100 + (y + 399) / 400

def monthDays (leap : Bool) (m : ℕ) : ℤ := [31, if leap then 29 else 28, 31, 30, 31, 30, 31, 31, 30, 31, 30, 31].getD m 0

def monthStart (leap : Bool) : ℕ → ℤ
  | 0 => 0
  | m + 1 => monthStart leap m + monthDays leap m

def monthLength (y m : ℤ) : ℤ := monthDays (isLeap (y + m / 12)) (m % 12).toNat

def dayNumber (y m d : ℤ) : ℤ := yearStart (y + m / 12) + monthStart (isLeap (y + m / 12)) (m % 12).toNat + d

theorem yearStart_succ (y : ℤ) : yearStart (y + 1) = yearStart y + yearLength y := by
  have h4 : (y + 1 + 3) / 4 = (y + 3) / 4 + if y % 4 = 0 then 1 else 0 := by split_ifs <;> omega
  have h100 : (y + 1 + 99) / 100 = (y + 99) / 100 + if y % 100 = 0 then 1 else 0 := by split_ifs <;> omega
  have h400 : (y + 1 + 399) / 400 = (y + 399) / 400 + if y % 400 = 0 then 1 else 0 := by split_ifs <;> omega
  simp only [yearStart, yearLength, isLeap, decide_eq_true_eq, h4, h100, h400]
  split_ifs <;> omega

theorem monthStart_twelve (y : ℤ) : monthStart (isLeap y) 11 + monthDays (isLeap y) 11 = yearLength y := by
  unfold yearLength
  cases isLeap y
  · decide
  · decide

theorem dayNumber_add (y m d k : ℤ) : dayNumber y m (d + k) = dayNumber y m d + k := by
  simp only [dayNumber, add_assoc]

theorem dayNumber_year_succ (y m d : ℤ) : dayNumber (y + 1) (m - 12) d = dayNumber y m d := by
  have hy : y + 1 + (m - 12) / 12 = y + m / 12 := by omega
  have hm : (m - 12) % 12 = m % 12 := by omega
  rw [dayNumber, dayNumber, hy, hm]

theorem dayNumber_month_succ (y m d : ℤ) : dayNumber y (m + 1) d = dayNumber y m d + monthLength y m := by
  unfold dayNumber monthLength
  by_cases h : m % 12 = 11
  · have hy : y + (m + 1) / 12 = y + m / 12 + 1 := by omega
    have hm : (m + 1) % 12 = 0 := by omega
    have hlen := monthStart_twelve (y + m / 12)
    rw [hy, hm, h, yearStart_succ]
    simp only [Int.toNat_zero, monthStart]
    rw [show (11 : ℤ).toNat = 11 from rfl]
    linarith
  · have hy : y + (m + 1) / 12 = y + m / 12 := by omega
    have hm : ((m + 1) % 12).toNat = (m % 12).toNat + 1 := by omega
    rw [hy, hm, monthStart]
    ring

theorem monthLength_year_succ (y m : ℤ) : monthLength (y + 1) (m - 12) = monthLength y m := by
  have hy : y + 1 + (m - 12) / 12 = y + m / 12 := by omega
  have hm : (m - 12) % 12 = m % 12 := by omega
  rw [monthLength, monthLength, hy, hm]

theorem monthLength_of_lt (y : ℤ) {m : ℤ} (h0 : 0 ≤ m) (h : m < 12) : monthLength y m = monthDays (isLeap y) m.toNat := by
  rw [monthLength, Int.ediv_eq_zero_of_lt h0 h, Int.emod_eq_of_lt h0 h, add_zero]

theorem monthLength_pos (y m : ℤ) : 0 < monthLength y m := by
  unfold monthLength
  have hm : (m % 12).toNat < 12 := by omega
  generalize isLeap _ = leap at *
  interval_cases (m % 12).toNat <;> cases leap <;> decide

theorem monthLength_le (y m : ℤ) : monthLength y m ≤ 31 := by
  unfold monthLength
  have hm : (m % 12).toNat < 12 := by omega
  generalize isLeap _ = leap at *
  interval_cases (m % 12).toNat <;> cases leap <;> decide

theorem dayNumber_month_mono (y : ℤ) {m m' : ℤ} (h : m < m') : dayNumber y m 0 + monthLength y m ≤ dayNumber y m' 0 := by
  rw [← dayNumber_month_succ]
  induction m', h using Int.leInduction with
  | base => exact le_refl _
  | succ k _ ih =>
    rw [dayNumber_month_succ y k]
    have := monthLength_pos y k
    omega

theorem dayNumber_months (y m d : ℤ) : dayNumber 0 (y * 12 + m) d = dayNumber y m d := by
  have hy : 0 + (y * 12 + m) / 12 = y + m / 12 := by omega
  have hm : (y * 12 + m) % 12 = m % 12 := by omega
  rw [dayNumber, dayNumber, hy, hm]

theorem dayNumber_lt {y m d m' d' : ℤ} (h : m < m') (hd : d < monthLength y m) (hd' : 0 ≤ d') :
    dayNumber y m d < dayNumber y m' d' := by
  have hmono := dayNumber_month_mono y h
  have h1 := dayNumber_add y m 0 d
  have h2 := dayNumber_add y m' 0 d'
  rw [zero_add] at h1 h2
  omega

theorem dayNumber_le {y y' m d : ℤ} (hy : y ≤ y') (hm : 0 ≤ m) (hd : 0 ≤ d) : dayNumber y 0 0 ≤ dayNumber y' m d := by
  have hadd := dayNumber_add y' m 0 d
  rw [zero_add, ← dayNumber_months y' m 0] at hadd
  rw [← dayNumber_months]
  rcases (show y * 12 + 0 ≤ y' * 12 + m by omega).eq_or_lt with h | h
  · rw [h]
    omega
  · have hlt := dayNumber_lt h (monthLength_pos 0 (y * 12 + 0)) (le_refl 0)
    omega

theorem monthLength_months (y m : ℤ) : monthLength 0 (y * 12 + m) = monthLength y m := by
  have hy : 0 + (y * 12 + m) / 12 = y + m / 12 := by omega
  have hm : (y * 12 + m) % 12 = m % 12 := by omega
  rw [monthLength, monthLength, hy, hm]

theorem cmp_dayNumber {y m d y' m' d' : ℤ} (hm : 0 ≤ m ∧ m < 12) (hd : 0 ≤ d ∧ d < monthLength y m) (hm' : 0 ≤ m' ∧ m' < 12)
    (hd' : 0 ≤ d' ∧ d' < monthLength y' m') :
    cmp (dayNumber y m d) (dayNumber y' m' d') = (cmp y y').then ((cmp m m').then (cmp d d')) := by
  rw [← dayNumber_months, ← dayNumber_months y', ← Ordering.then_assoc, ← cmp_mul_add hm.1 hm.2 hm'.1 hm'.2]
  rw [← monthLength_months] at hd hd'
  generalize y * 12 + m = t at hd ⊢
  generalize y' * 12 + m' = t' at hd' ⊢
  rcases lt_trichotomy t t' with h | rfl | h
  · rw [cmp_eq_lt_iff _ _ |>.mpr h, Ordering.lt_then, cmp_eq_lt_iff]
    exact dayNumber_lt h hd.2 hd'.1
  · rw [cmp_self_eq_eq, Ordering.eq_then, dayNumber, dayNumber, cmp_add_left]
  · rw [cmp_eq_gt_iff _ _ |>.mpr h, Ordering.gt_then, cmp_eq_gt_iff]
    exact dayNumber_lt h hd'.2 hd.1

end Calendar
end ReOpenLDAP
