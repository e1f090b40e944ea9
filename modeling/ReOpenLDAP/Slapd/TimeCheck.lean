import Mathlib.Data.List.GetD
import ReOpenLDAP.Slapd.TimeSyntax

/-!
# Slapd.TimeCheck

What `check_time_syntax` reads: the texts of the syntax, and the parts in UTC.
-/

namespace ReOpenLDAP
namespace Slapd

open Calendar Cmp Decimal List

def shown (part v : ℕ) : ℕ := if part ||| 1 = 3 then v + 1 else v

def partsText : ℕ → List ℕ → List Char
  | _, [] => []
  | part, v :: vs => twoDigits (shown part v) ++ partsText (part + 1) vs

def PartsOk : ℕ → List ℕ → Prop
  | _, [] => True
  | part, v :: vs => ((v : ℤ) < ceiling part ∨ v = 60 ∧ part = 6) ∧ PartsOk (part + 1) vs

def store : Parts → ℕ → List ℕ → Parts
  | parts, _, [] => parts
  | parts, part, v :: vs => store (Function.update parts part v) (part + 1) vs

def Stops (p : List Char) : Prop := ∀ c ∈ p.head?, c.isDigit = false

theorem month_or_day {part : ℕ} : part ||| 1 = 3 ↔ part = 2 ∨ part = 3 := by
  constructor
  · intro h
    have hle : part ≤ 3 := h ▸ Nat.left_le_or
    interval_cases part
    · simp at h
    · simp at h
    · simp
    · simp
  · rintro (rfl | rfl)
    · rfl
    · rfl

theorem ceiling_le (part : ℕ) : ceiling part ≤ 100 := by
  unfold ceiling
  by_cases h : part < 9
  · interval_cases part <;> decide
  · rw [getD_eq_default _ _ (by simp; omega)]
    decide

theorem shown_lt {part v : ℕ} (h : (v : ℤ) < ceiling part ∨ v = 60 ∧ part = 6) : shown part v < 100 := by
  have hle := ceiling_le part
  unfold shown
  split_ifs with hm
  · rcases month_or_day.mp hm with rfl | rfl
    · change (v : ℤ) < 12 ∨ _ at h
      omega
    · change (v : ℤ) < 31 ∨ _ at h
      omega
  · omega

theorem twoDigits_shown {part v : ℕ} (h : shown part v < 100) : ∃ c1 c2, twoDigits (shown part v) = [c1, c2] ∧
    c1.isDigit = true ∧ c2.isDigit = true ∧ value c1 * 10 + value c2 = shown part v := by
  refine ⟨_, _, rfl, isDigit_digit (by omega), isDigit_digit (by omega), ?_⟩
  rw [value_digit (by omega), value_digit (by omega)]
  omega

variable {p ds : List Char} {last : ℕ} {vs : List ℕ}

theorem scanParts_stop {part : ℕ} (parts : Parts) (h : part = last ∨ Stops p) :
    scanParts last part parts p = some (part, parts, p) := by
  cases p with
  | nil => rfl
  | cons c p =>
    have hno : ¬ (part < last ∧ c.isDigit = true) := by
      rintro ⟨hlt, hc⟩
      rcases h with rfl | h
      · exact lt_irrefl _ hlt
      · exact absurd (h c rfl) (by simp [hc])
    unfold scanParts
    rw [if_neg hno]

theorem scanParts_text {part : ℕ} {parts : Parts} (hok : PartsOk part vs)
    (hlast : part + vs.length ≤ last) (hstop : part + vs.length = last ∨ Stops p) :
    scanParts last part parts (partsText part vs ++ p) = some (part + vs.length, store parts part vs, p) := by
  induction vs generalizing part parts with
  | nil => exact scanParts_stop parts hstop
  | cons v vs ih =>
    obtain ⟨hv, hvs⟩ := hok
    obtain ⟨c1, c2, htext, hc1, hc2, hval⟩ := twoDigits_shown (shown_lt hv)
    rw [length_cons] at hlast hstop ⊢
    have hcond : part < last ∧ c1.isDigit = true := ⟨by omega, hc1⟩
    have hshown : ((if part ||| 1 = 3 then (value c1 * 10 + value c2 : ℤ) - 1 else value c1 * 10 + value c2) : ℤ) = v := by
      have hcast : (value c1 * 10 + value c2 : ℤ) = shown part v := by exact_mod_cast hval
      rw [hcast, shown]
      split_ifs
      · push_cast
        omega
      · rfl
    have hrange : ¬ (ceiling part ≤ (v : ℤ) ∧ ¬ ((v : ℤ) = 60 ∧ part = 6)) := by omega
    rw [partsText, htext, append_assoc, cons_append, cons_append, List.nil_append, scanParts, if_pos hcond]
    simp only [hc2, hshown]
    rw [if_neg (by simp), if_neg (by omega), if_neg hrange, ih hvs (by omega) (hstop.imp_left (by omega)), store]
    rw [Nat.add_assoc, Nat.add_comm 1]

theorem scanParts_inv {part part' : ℕ} {parts parts' : Parts} {p' : List Char} (hle : part ≤ last)
    (h : scanParts last part parts p = some (part', parts', p')) :
    ∃ vs, PartsOk part vs ∧ p = partsText part vs ++ p' ∧ part' = part + vs.length ∧ parts' = store parts part vs ∧
      part' ≤ last := by
  fun_induction scanParts last part parts p with
  | case1 part parts =>
    cases h
    exact ⟨[], trivial, rfl, rfl, rfl, hle⟩
  | case2 part parts c1 hcond => cases h
  | case3 part parts c1 hcond c2 p hc2 => cases h
  | case4 part parts c1 hcond c2 p hc2 c c' hneg => cases h
  | case5 part parts c1 hcond c2 p hc2 c c' hneg hceil => cases h
  | case6 part parts c1 hcond c2 p hc2 c c' hneg hceil ih =>
    have hc2 : c2.isDigit = true := by simpa using hc2
    obtain ⟨vs, hvs, htext, hlen, hstore, hlast⟩ := ih (by omega) h
    obtain ⟨v, hv, hshown⟩ : ∃ v : ℕ, c' = v ∧ shown part v = value c1 * 10 + value c2 := by
      refine ⟨c'.toNat, ?_⟩
      by_cases hm : part ||| 1 = 3
      · have hc' : c' = c - 1 := if_pos hm
        rw [shown, if_pos hm]
        omega
      · have hc' : c' = c := if_neg hm
        rw [shown, if_neg hm]
        omega
    refine ⟨v :: vs, ⟨by omega, hvs⟩, ?_, by simp; omega, by rw [hstore, hv, store], hlast⟩
    rw [partsText, hshown, twoDigits_value hcond.2 hc2, htext]
    rfl
  | case7 part parts c1 p hcond =>
    cases h
    exact ⟨[], trivial, rfl, rfl, rfl, hle⟩

theorem mdays_eq (leap : Bool) (m : ℤ) : mdays leap m = monthDays leap m.toNat := by cases leap <;> rfl

theorem leapyear_eq {parts : Parts} (h1 : 0 ≤ parts 1 ∧ parts 1 < 100) :
    leapyear parts = isLeap (parts 0 * 100 + parts 1) := by
  unfold leapyear isLeap
  rw [decide_eq_decide]
  split_ifs <;> omega

def minuteOf (parts : Parts) : ℤ := (dayNumber (parts 0 * 100 + parts 1) (parts 2) (parts 3) * 24 + parts 4) * 60 + parts 5

structure Bounds (parts : Parts) (c y m d h mi : ℤ × ℤ) : Prop where
  century : c.1 ≤ parts 0 ∧ parts 0 < c.2
  year : y.1 ≤ parts 1 ∧ parts 1 < y.2
  month : m.1 ≤ parts 2 ∧ parts 2 < m.2
  day : d.1 ≤ parts 3 ∧ parts 3 < monthLength (parts 0 * 100 + parts 1) (parts 2) + d.2
  hour : h.1 ≤ parts 4 ∧ parts 4 < h.2
  minute : mi.1 ≤ parts 5 ∧ parts 5 < mi.2

abbrev Regular (parts : Parts) : Prop := Bounds parts (0, 100) (0, 100) (0, 12) (0, 0) (0, 24) (0, 60)

def Era (m : ℤ) : Prop := 0 ≤ m ∧ m < dayNumber 10000 0 0 * 24 * 60

/-- The parts of the minute `m`, unless it is out of the era, and the second `s`. -/
def Shifted (m s : ℤ) : Option Parts → Prop
  | some parts => Regular parts ∧ minuteOf parts = m ∧ parts 6 = s
  | none => ¬ Era m

variable {parts : Parts} {leap : Bool}

theorem Shifted.of_eq {m s m' s' : ℤ} {r : Option Parts} (h : Shifted m' s' r) (hm : m' = m) (hs : s' = s) : Shifted m s r := by
  subst hm hs
  exact h

theorem Regular.shifted (h : Regular parts) : Shifted (minuteOf parts) (parts 6) (some parts) := ⟨h, rfl, rfl⟩

theorem Regular.era (h : Regular parts) : Era (minuteOf parts) := by
  obtain ⟨h0, h1, h2, h3, h4, h5⟩ := h
  have hle := @dayNumber_le 0 (parts 0 * 100 + parts 1) (parts 2) (parts 3) (by omega) h2.1 h3.1
  have hzero : dayNumber 0 0 0 = 0 := by decide
  have hlt : dayNumber (parts 0 * 100 + parts 1) (parts 2) (parts 3) < dayNumber 10000 0 0 := by
    have hlen := h3.2
    rw [add_zero, ← monthLength_months] at hlen
    rw [← dayNumber_months, ← dayNumber_months 10000]
    exact dayNumber_lt (by omega) hlen (le_refl 0)
  unfold Era minuteOf
  omega

theorem carry_century (h : Bounds parts (0, 101) (0, 100) (0, 12) (0, 0) (0, 24) (0, 60)) :
    Shifted (minuteOf parts) (parts 6) (carryParts leap 1 parts) := by
  obtain ⟨h0, h1, h2, h3, h4, h5⟩ := h
  by_cases hc : 100 ≤ parts 0
  · have hnone : carryParts leap 1 parts = none := by simp [carryParts, ceiling, hc]
    have hadd := dayNumber_months (parts 0 * 100 + parts 1) (parts 2) (parts 3)
    have hmono : dayNumber 10000 0 0 ≤ dayNumber (parts 0 * 100 + parts 1) (parts 2) (parts 3) := by
      rw [show parts 0 * 100 + parts 1 = 10000 + parts 1 by omega]
      exact dayNumber_le (by omega) (by omega) h3.1
    rw [hnone, Shifted, Era, minuteOf]
    omega
  · have hsome : carryParts leap 1 parts = some parts := by simp [carryParts, ceiling, hc]
    rw [hsome]
    exact Regular.shifted ⟨⟨h0.1, not_le.mp hc⟩, h1, h2, h3, h4, h5⟩

theorem carry_year (h : Bounds parts (0, 100) (0, 101) (0, 12) (0, 0) (0, 24) (0, 60)) :
    Shifted (minuteOf parts) (parts 6) (carryParts leap 2 parts) := by
  obtain ⟨h0, h1, h2, h3, h4, h5⟩ := h
  by_cases hc : 100 ≤ parts 1
  · have hstep : carryParts leap 2 parts =
        carryParts leap 1 (Function.update (Function.update parts 1 (parts 1 - 100)) 0 (parts 0 + 1)) := by
      rw [carryParts]
      simp [ceiling, hc]
    have hy : (parts 0 + 1) * 100 + (parts 1 - 100) = parts 0 * 100 + parts 1 := by ring
    rw [hstep]
    refine (carry_century ⟨?_, ?_, ?_, ?_, ?_, ?_⟩).of_eq ?_ ?_ <;> simp [minuteOf, hy] <;> omega
  · have hsome : carryParts leap 2 parts = some parts := by simp [carryParts, ceiling, hc]
    rw [hsome]
    exact Regular.shifted ⟨h0, ⟨h1.1, not_le.mp hc⟩, h2, h3, h4, h5⟩

theorem carry_month (h : Bounds parts (0, 100) (0, 100) (0, 13) (0, 0) (0, 24) (0, 60)) :
    Shifted (minuteOf parts) (parts 6) (carryParts leap 3 parts) := by
  obtain ⟨h0, h1, h2, h3, h4, h5⟩ := h
  by_cases hc : 12 ≤ parts 2
  · have hstep : carryParts leap 3 parts =
        carryParts leap 2 (Function.update (Function.update parts 2 (parts 2 - 12)) 1 (parts 1 + 1)) := by
      rw [carryParts]
      simp [ceiling, hc]
    rw [hstep]
    refine (carry_year ⟨?_, ?_, ?_, ?_, ?_, ?_⟩).of_eq ?_ ?_ <;>
      simp [minuteOf, ← add_assoc, monthLength_year_succ, dayNumber_year_succ] <;> omega
  · have hsome : carryParts leap 3 parts = some parts := by simp [carryParts, ceiling, hc]
    rw [hsome]
    exact Regular.shifted ⟨h0, h1, ⟨h2.1, not_le.mp hc⟩, h3, h4, h5⟩

theorem carry_day (hleap : leap = isLeap (parts 0 * 100 + parts 1))
    (h : Bounds parts (0, 100) (0, 100) (0, 12) (0, 1) (0, 24) (0, 60)) : Shifted (minuteOf parts) (parts 6) (carryParts leap 4 parts) := by
  obtain ⟨h0, h1, h2, h3, h4, h5⟩ := h
  have hlen : mdays leap (parts 2) = monthLength (parts 0 * 100 + parts 1) (parts 2) := by
    rw [monthLength_of_lt _ h2.1 h2.2, mdays_eq, hleap]
  by_cases hc : mdays leap (parts 2) ≤ parts 3
  · have hstep : carryParts leap 4 parts =
        carryParts leap 3 (Function.update (Function.update parts 3 (parts 3 - mdays leap (parts 2))) 2 (parts 2 + 1)) := by
      rw [carryParts]
      simp [hc]
    have hpos := monthLength_pos (parts 0 * 100 + parts 1) (parts 2 + 1)
    have hday : dayNumber (parts 0 * 100 + parts 1) (parts 2 + 1) (parts 3 - mdays leap (parts 2)) =
        dayNumber (parts 0 * 100 + parts 1) (parts 2) (parts 3) := by
      rw [dayNumber_month_succ, ← hlen, ← dayNumber_add, sub_add_cancel]
    rw [hstep]
    refine (carry_month ⟨?_, ?_, ?_, ?_, ?_, ?_⟩).of_eq ?_ ?_ <;> simp [minuteOf, hday] <;> omega
  · have hsome : carryParts leap 4 parts = some parts := by simp [carryParts, hc]
    rw [hsome]
    exact Regular.shifted ⟨h0, h1, h2, by omega, h4, h5⟩

theorem carry_hour (hleap : leap = isLeap (parts 0 * 100 + parts 1))
    (h : Bounds parts (0, 100) (0, 100) (0, 12) (0, 0) (0, 48) (0, 60)) : Shifted (minuteOf parts) (parts 6) (carryParts leap 5 parts) := by
  obtain ⟨h0, h1, h2, h3, h4, h5⟩ := h
  by_cases hc : 24 ≤ parts 4
  · have hstep : carryParts leap 5 parts =
        carryParts leap 4 (Function.update (Function.update parts 4 (parts 4 - 24)) 3 (parts 3 + 1)) := by
      rw [carryParts]
      simp [ceiling, hc]
    rw [hstep]
    refine (carry_day ?_ ⟨?_, ?_, ?_, ?_, ?_, ?_⟩).of_eq ?_ ?_ <;> simp [minuteOf, hleap, dayNumber_add] <;> omega
  · have hsome : carryParts leap 5 parts = some parts := by simp [carryParts, ceiling, hc]
    rw [hsome]
    exact Regular.shifted ⟨h0, h1, h2, h3, ⟨h4.1, not_le.mp hc⟩, h5⟩

theorem carryParts_spec (hleap : leap = isLeap (parts 0 * 100 + parts 1))
    (h : Bounds parts (0, 100) (0, 100) (0, 12) (0, 0) (0, 47) (0, 120)) : Shifted (minuteOf parts) (parts 6) (carryParts leap 6 parts) := by
  obtain ⟨h0, h1, h2, h3, h4, h5⟩ := h
  by_cases hc : 60 ≤ parts 5
  · have hstep : carryParts leap 6 parts =
        carryParts leap 5 (Function.update (Function.update parts 5 (parts 5 - 60)) 4 (parts 4 + 1)) := by
      rw [carryParts]
      simp [ceiling, hc]
    rw [hstep]
    refine (carry_hour ?_ ⟨?_, ?_, ?_, ?_, ?_, ?_⟩).of_eq ?_ ?_ <;> simp [minuteOf, hleap] <;> omega
  · have hstep : carryParts leap 6 parts = carryParts leap 5 parts := by
      rw [carryParts]
      simp [ceiling, hc]
    rw [hstep]
    exact carry_hour hleap ⟨h0, h1, h2, h3, ⟨h4.1, by omega⟩, ⟨h5.1, not_le.mp hc⟩⟩

theorem borrow_century (h : Bounds parts (-1, 100) (0, 100) (0, 12) (0, 0) (0, 24) (0, 60)) :
    Shifted (minuteOf parts) (parts 6) (borrowParts leap 1 parts) := by
  obtain ⟨h0, h1, h2, h3, h4, h5⟩ := h
  by_cases hc : parts 0 < 0
  · have hnone : borrowParts leap 1 parts = none := by simp [borrowParts, hc]
    have hlt : dayNumber (parts 0 * 100 + parts 1) (parts 2) (parts 3) < dayNumber 0 (0 * 12 + 0) 0 := by
      have hlen := h3.2
      rw [add_zero, ← monthLength_months] at hlen
      rw [← dayNumber_months]
      exact dayNumber_lt (by omega) hlen (le_refl 0)
    have hzero : dayNumber 0 (0 * 12 + 0) 0 = 0 := by decide
    rw [hnone, Shifted, Era, minuteOf]
    omega
  · have hsome : borrowParts leap 1 parts = some parts := by simp [borrowParts, hc]
    rw [hsome]
    exact Regular.shifted ⟨⟨not_lt.mp hc, h0.2⟩, h1, h2, h3, h4, h5⟩

theorem borrow_year (h : Bounds parts (0, 100) (-1, 100) (0, 12) (0, 0) (0, 24) (0, 60)) :
    Shifted (minuteOf parts) (parts 6) (borrowParts leap 2 parts) := by
  obtain ⟨h0, h1, h2, h3, h4, h5⟩ := h
  by_cases hc : parts 1 < 0
  · have hstep : borrowParts leap 2 parts =
        borrowParts leap 1 (Function.update (Function.update parts 1 (parts 1 + 100)) 0 (parts 0 - 1)) := by
      rw [borrowParts]
      simp [ceiling, hc]
    have hy : (parts 0 - 1) * 100 + (parts 1 + 100) = parts 0 * 100 + parts 1 := by ring
    rw [hstep]
    refine (borrow_century ⟨?_, ?_, ?_, ?_, ?_, ?_⟩).of_eq ?_ ?_ <;> simp [minuteOf, hy] <;> omega
  · have hsome : borrowParts leap 2 parts = some parts := by simp [borrowParts, hc]
    rw [hsome]
    exact Regular.shifted ⟨h0, ⟨not_lt.mp hc, h1.2⟩, h2, h3, h4, h5⟩

theorem borrow_month (h : Bounds parts (0, 100) (0, 100) (-1, 12) (0, 0) (0, 24) (0, 60)) :
    Shifted (minuteOf parts) (parts 6) (borrowParts leap 3 parts) := by
  obtain ⟨h0, h1, h2, h3, h4, h5⟩ := h
  by_cases hc : parts 2 < 0
  · have hstep : borrowParts leap 3 parts =
        borrowParts leap 2 (Function.update (Function.update parts 2 (parts 2 + 12)) 1 (parts 1 - 1)) := by
      rw [borrowParts]
      simp [ceiling, hc]
    have hlen := monthLength_year_succ (parts 0 * 100 + (parts 1 - 1)) (parts 2 + 12)
    have hday := dayNumber_year_succ (parts 0 * 100 + (parts 1 - 1)) (parts 2 + 12) (parts 3)
    rw [show parts 0 * 100 + (parts 1 - 1) + 1 = parts 0 * 100 + parts 1 by ring, add_sub_cancel_right] at hlen hday
    rw [hstep]
    refine (borrow_year ⟨?_, ?_, ?_, ?_, ?_, ?_⟩).of_eq ?_ ?_ <;> simp [minuteOf, ← hlen, ← hday] <;> omega
  · have hsome : borrowParts leap 3 parts = some parts := by simp [borrowParts, hc]
    rw [hsome]
    exact Regular.shifted ⟨h0, h1, ⟨not_lt.mp hc, h2.2⟩, h3, h4, h5⟩

theorem borrow_day (hleap : leap = isLeap (parts 0 * 100 + parts 1))
    (h : Bounds parts (0, 100) (0, 100) (0, 12) (-1, 0) (0, 24) (0, 60)) : Shifted (minuteOf parts) (parts 6) (borrowParts leap 4 parts) := by
  obtain ⟨h0, h1, h2, h3, h4, h5⟩ := h
  by_cases hc : parts 3 < 0
  · have hlen : mdays leap ((parts 2 - 1 + 12) % 12) = monthLength (parts 0 * 100 + parts 1) (parts 2 - 1) := by
      rcases h2.1.eq_or_lt with hm | hm
      · -- the last month has 31 days in each year
        rw [← hm, monthLength, mdays_eq]
        cases leap <;> cases isLeap (parts 0 * 100 + parts 1 + (0 - 1) / 12) <;> rfl
      · rw [Int.add_emod_right, Int.emod_eq_of_lt (by omega) (by omega), monthLength_of_lt _ (by omega) (by omega),
          mdays_eq, hleap]
    have hstep : borrowParts leap 4 parts = borrowParts leap 3 (Function.update
        (Function.update parts 3 (parts 3 + mdays leap ((parts 2 - 1 + 12) % 12))) 2 (parts 2 - 1)) := by
      rw [borrowParts]
      simp [hc]
    have hpos := monthLength_pos (parts 0 * 100 + parts 1) (parts 2 - 1)
    have hday := dayNumber_month_succ (parts 0 * 100 + parts 1) (parts 2 - 1) (parts 3)
    rw [sub_add_cancel, ← hlen, ← dayNumber_add] at hday
    rw [hstep]
    generalize mdays leap ((parts 2 - 1 + 12) % 12) = c at hlen hday ⊢
    refine (borrow_month ⟨?_, ?_, ?_, ?_, ?_, ?_⟩).of_eq ?_ ?_ <;> simp [minuteOf, ← hday] <;> omega
  · have hsome : borrowParts leap 4 parts = some parts := by simp [borrowParts, hc]
    rw [hsome]
    exact Regular.shifted ⟨h0, h1, h2, ⟨not_lt.mp hc, h3.2⟩, h4, h5⟩

theorem borrow_hour (hleap : leap = isLeap (parts 0 * 100 + parts 1))
    (h : Bounds parts (0, 100) (0, 100) (0, 12) (0, 0) (-24, 24) (0, 60)) : Shifted (minuteOf parts) (parts 6) (borrowParts leap 5 parts) := by
  obtain ⟨h0, h1, h2, h3, h4, h5⟩ := h
  by_cases hc : parts 4 < 0
  · have hstep : borrowParts leap 5 parts =
        borrowParts leap 4 (Function.update (Function.update parts 4 (parts 4 + 24)) 3 (parts 3 - 1)) := by
      rw [borrowParts]
      simp [ceiling, hc]
    have hday := dayNumber_add (parts 0 * 100 + parts 1) (parts 2) (parts 3) (-1)
    rw [← sub_eq_add_neg] at hday
    rw [hstep]
    refine (borrow_day ?_ ⟨?_, ?_, ?_, ?_, ?_, ?_⟩).of_eq ?_ ?_ <;> simp [minuteOf, hleap, hday] <;> omega
  · have hsome : borrowParts leap 5 parts = some parts := by simp [borrowParts, hc]
    rw [hsome]
    exact Regular.shifted ⟨h0, h1, h2, h3, ⟨not_lt.mp hc, h4.2⟩, h5⟩

theorem borrowParts_spec (hleap : leap = isLeap (parts 0 * 100 + parts 1))
    (h : Bounds parts (0, 100) (0, 100) (0, 12) (0, 0) (-23, 24) (-60, 60)) :
    Shifted (minuteOf parts) (parts 6) (borrowParts leap 6 parts) := by
  obtain ⟨h0, h1, h2, h3, h4, h5⟩ := h
  by_cases hc : parts 5 < 0
  · have hstep : borrowParts leap 6 parts =
        borrowParts leap 5 (Function.update (Function.update parts 5 (parts 5 + 60)) 4 (parts 4 - 1)) := by
      rw [borrowParts]
      simp [ceiling, hc]
    rw [hstep]
    refine (borrow_hour ?_ ⟨?_, ?_, ?_, ?_, ?_, ?_⟩).of_eq ?_ ?_ <;> simp [minuteOf, hleap] <;> omega
  · have hstep : borrowParts leap 6 parts = borrowParts leap 5 parts := by
      rw [borrowParts]
      simp [hc]
    rw [hstep]
    exact borrow_hour hleap ⟨h0, h1, h2, h3, ⟨by omega, h4.2⟩, ⟨not_lt.mp hc, h5.2⟩⟩

/-! ## The fraction -/

def readLen (n : ℕ) : ℕ := if toInt n ≠ 1 then toLen (toInt n) else 0

theorem trimEnd_kept {mark : Char} (hmark : mark ≠ '0') {bv_len : ℕ} {rest : List Char} :
    trimEnd bv_len (mark :: ds ++ rest) (ds.length + 1) =
      if rest.getD 0 '\x00' = 'Z' ∧ rest.getD 1 '\x00' = '\x00' ∧ bv_len = 22 ∧ ds.length = 6 then ds.length + 1
      else (trimZeros ds).length + 1 := by
  induction ds using List.reverseRecOn generalizing rest with
  | nil => simp [trimEnd, trimZeros, hmark]
  | append_singleton ds c ih =>
    have hget : (mark :: (ds ++ [c]) ++ rest).getD (ds.length + 1) '\x00' = c := by simp
    have hnext (i : ℕ) : (mark :: (ds ++ [c]) ++ rest).getD (ds.length + 1 + (i + 1)) '\x00' = rest.getD i '\x00' := by
      rw [getD_append_right _ _ _ _ (by simp)]
      congr 1
      simp only [length_cons, length_append, length_nil]
      omega
    rw [length_append, length_singleton, trimEnd, hget, hnext 0, hnext 1, trimZeros_append_singleton]
    by_cases hc : c = '0'
    · -- a zero is in front of the rest, so that there is no `Z`
      have hih : trimEnd bv_len (mark :: ds ++ c :: rest) (ds.length + 1) = (trimZeros ds).length + 1 := by
        rw [ih, if_neg (by simp [hc])]
      rw [if_pos hc, if_pos hc, ← hih]
      simp
    · rw [if_neg hc, if_neg hc]
      simp

theorem Zone.text_cases (z : Zone) : ∃ c p, z.text = c :: p ∧ (c = 'Z' ∧ p = [] ∧ z = .utc ∨ (c = '+' ∨ c = '-') ∧ z ≠ .utc) := by
  cases z with
  | utc => exact ⟨'Z', [], rfl, .inl ⟨rfl, rfl, rfl⟩⟩
  | offset west hour minute =>
    refine ⟨if west then '-' else '+', _, rfl, .inr ⟨?_, nofun⟩⟩
    cases west
    · exact .inl rfl
    · exact .inr rfl

theorem Zone.text_stops (z : Zone) : Stops z.text := by
  obtain ⟨c, p, htext, hc⟩ := z.text_cases
  rw [htext]
  rintro _ ⟨rfl⟩
  rcases hc with ⟨rfl, -, -⟩ | ⟨rfl | rfl, -⟩
  · decide
  · decide
  · decide

theorem takeWhile_digits (hds : Digits ds) (hp : Stops p) :
    (ds ++ p).takeWhile Char.isDigit = ds ∧ (ds ++ p).dropWhile Char.isDigit = p := by
  rw [takeWhile_append_of_pos hds, dropWhile_append_of_pos hds]
  cases p with
  | nil => simp
  | cons c p => simp [hp c rfl]

namespace GeneralizedTime

/-- The form of six digits that keeps its zeros, `YYYYmmddHHMMSS.ddddddZ`. -/
def keepsZeros (g : GeneralizedTime) : Bool :=
  match g.rest, g.zone with
  | .second _ _, .utc => decide (g.digits.length = 6)
  | _, _ => false

def keptDigits (g : GeneralizedTime) : List Char := if g.keepsZeros then g.digits else trimZeros g.digits

theorem digits_ok (g : GeneralizedTime) : Digits g.digits := by
  unfold digits
  cases g.fraction with
  | none => exact fun c hc => absurd hc not_mem_nil
  | some f => exact f.digits_ok

theorem keepsZeros_iff (g : GeneralizedTime) {f : FractionPart} (hf : g.fraction = some f) : g.keepsZeros = true ↔
    g.zone.text.getD 0 '\x00' = 'Z' ∧ g.zone.text.getD 1 '\x00' = '\x00' ∧ g.text.length = 22 ∧ f.digits.length = 6 := by
  have hd : g.digits = f.digits := by simp [digits, hf]
  have ht : g.fractionText.length = f.digits.length + 1 := by simp [fractionText, hf]
  unfold keepsZeros text
  obtain ⟨c, p, htext, ⟨rfl, rfl, hz⟩ | ⟨hc, hz⟩⟩ := g.zone.text_cases
  · rw [htext, hz]
    cases hr : g.rest with
    | hour => simp [Rest.text, ht]; omega
    | minute m => simp [Rest.text, ht]; omega
    | second m s => simp [Rest.text, ht, hd]; omega
  · have hno : c ≠ 'Z' := by rcases hc with rfl | rfl <;> decide
    cases hzone : g.zone with
    | utc => exact absurd hzone hz
    | offset west hour minute =>
      rw [hzone] at htext
      cases g.rest <;> simp [htext, hno]

theorem scanFraction_text (g : GeneralizedTime) : scanFraction g.text.length (g.fractionText ++ g.zone.text) =
    some (⟨g.fractionText ++ g.zone.text, readLen (g.keptDigits.length + 1)⟩, g.zone.text) := by
  cases hf : g.fraction with
  | none =>
    have hkept : g.keptDigits = [] := by simp [keptDigits, digits, hf, trimZeros]
    have htext : g.fractionText = [] := by simp [fractionText, hf]
    obtain ⟨c, p, hzone, hc⟩ := g.zone.text_cases
    have hno : ¬ (c = '.' ∨ c = ',') := by
      rcases hc with ⟨rfl, -, -⟩ | ⟨rfl | rfl, -⟩ <;> decide
    rw [hkept, htext, hzone, List.nil_append, scanFraction]
    dsimp only
    rw [if_neg hno]
    rfl
  | some f =>
    have hd : g.digits = f.digits := by simp [digits, hf]
    have htext : g.fractionText = f.mark :: f.digits := by simp [fractionText, hf]
    obtain ⟨htake, hdrop⟩ := takeWhile_digits f.digits_ok g.zone.text_stops
    have hmark : f.mark ≠ '0' := by rcases f.mark_ok with h | h <;> rw [h] <;> decide
    have hend : trimEnd g.text.length (f.mark :: f.digits ++ g.zone.text) (f.digits.length + 1) = g.keptDigits.length + 1 := by
      rw [trimEnd_kept hmark, keptDigits, hd]
      simp only [← g.keepsZeros_iff hf]
      split_ifs <;> rfl
    rw [htext, cons_append, scanFraction]
    dsimp only
    rw [if_pos f.mark_ok, htake, hdrop, if_neg f.ne_nil, ← cons_append, hend]
    rfl

end GeneralizedTime

theorem store_apply (parts : Parts) (part : ℕ) (vs : List ℕ) (j : ℕ) :
    store parts part vs j = if part ≤ j ∧ j < part + vs.length then (vs.getD (j - part) 0 : ℤ) else parts j := by
  induction vs generalizing parts part with
  | nil => simp [store]
  | cons v vs ih =>
    rw [store, ih, length_cons]
    rcases lt_trichotomy j part with h | rfl | h
    · simp [h.ne, h.not_ge, show ¬ part + 1 ≤ j by omega]
    · simp
    · obtain ⟨k, rfl⟩ := Nat.exists_eq_add_of_lt h
      have h1 : part + k + 1 - (part + 1) = k := by omega
      have h2 : part + k + 1 - part = k + 1 := by omega
      rw [h1, h2, getD_cons_succ, Function.update_of_ne (by omega)]
      exact if_congr (by omega) rfl rfl

theorem zeroFill (vs : List ℕ) :
    (fun j => if 0 + vs.length ≤ j then 0 else store (fun _ => 0) 0 vs j) = fun j => ((vs.getD j 0 : ℕ) : ℤ) := by
  funext j
  rw [store_apply]
  by_cases h : 0 + vs.length ≤ j
  · rw [if_pos h, getD_eq_default _ _ (by omega)]
    rfl
  · rw [if_neg h, if_pos ⟨Nat.zero_le j, by omega⟩]
    rfl

def Rest.values : Rest → List ℕ
  | .hour => []
  | .minute m => [m]
  | .second m s => [m, s]

def Zone.values : Zone → List ℕ
  | .utc => []
  | .offset _ hour minute => hour :: (minute.map fun m : Fin 60 => [(m : ℕ)]).getD []

namespace GeneralizedTime

variable (g : GeneralizedTime)

def values : List ℕ := g.century :: g.year :: g.month :: g.day :: g.hour :: g.rest.values

def localParts : Parts := fun j => (g.values.getD j 0 : ℕ)

theorem text_eq : g.text = partsText 0 g.values ++ (g.fractionText ++ g.zone.text) := by
  unfold text values
  cases g.rest <;> simp [Rest.text, Rest.values, partsText, shown]

theorem values_ok : PartsOk 0 g.values := by
  have hday := g.day_lt
  have hlen := monthLength_le (g.century * 100 + g.year) g.month
  unfold values
  cases g.rest <;> simp [Rest.values, PartsOk, ceiling] <;> omega

theorem localParts_five : g.localParts 5 = g.rest.minutes ∧ g.localParts 6 = g.rest.seconds ∧ g.localParts 8 = 0 := by
  unfold localParts values
  cases g.rest <;> exact ⟨rfl, rfl, rfl⟩

theorem localParts_regular : Regular g.localParts := by
  have hday := g.day_lt
  have hrest := g.localParts_five.1
  refine ⟨?_, ?_, ?_, ?_, ?_, ?_⟩
  · exact ⟨Int.natCast_nonneg _, Int.ofNat_lt.mpr g.century.isLt⟩
  · exact ⟨Int.natCast_nonneg _, Int.ofNat_lt.mpr g.year.isLt⟩
  · exact ⟨Int.natCast_nonneg _, Int.ofNat_lt.mpr g.month.isLt⟩
  · exact ⟨Int.natCast_nonneg _, hday.trans_eq (add_zero _).symm⟩
  · exact ⟨Int.natCast_nonneg _, Int.ofNat_lt.mpr g.hour.isLt⟩
  · rw [hrest]
    cases g.rest <;> simp [Rest.minutes]

theorem localParts_minute : minuteOf g.localParts = g.utcMinute + g.zone.minutes := by
  unfold minuteOf utcMinute
  rw [g.localParts_five.1]
  have h : ∀ j, g.localParts j = (g.values.getD j 0 : ℕ) := fun _ => rfl
  simp [h, values]

theorem scanOffset (west : Bool) (hour : Fin 24) (minute : Option (Fin 60)) :
    ∃ stored, scanParts 9 7 g.localParts (Zone.offset west hour minute).text.tail =
        some (7 + (Zone.offset west hour minute).values.length, stored, []) ∧ (∀ j < 7, stored j = g.localParts j) ∧
      stored 7 = (hour : ℕ) ∧ stored 8 = ((minute.map fun m : Fin 60 => (m : ℕ)).getD 0 : ℕ) := by
  have htext : (Zone.offset west hour minute).text.tail = partsText 7 (Zone.offset west hour minute).values ++ [] := by
    cases minute <;> simp [Zone.text, Zone.values, partsText, shown]
  have hok : PartsOk 7 (Zone.offset west hour minute).values := by
    cases minute <;> simp [Zone.values, PartsOk, ceiling]
  have hlen : 7 + (Zone.offset west hour minute).values.length ≤ 9 := by cases minute <;> simp [Zone.values]
  refine ⟨_, htext ▸ scanParts_text hok hlen (.inr (by simp [Stops])), fun j hj => ?_, ?_, ?_⟩
  · rw [store_apply, if_neg (by omega)]
  · rw [store_apply, if_pos (by simp [Zone.values])]
    rfl
  · rw [store_apply]
    cases minute with
    | none => simp [Zone.values, g.localParts_five.2.2]
    | some m => simp [Zone.values]

theorem scanZone_text : Shifted g.utcMinute g.rest.seconds (scanZone (leapyear g.localParts) g.localParts g.zone.text) := by
  have hreg := g.localParts_regular
  have hleap := leapyear_eq hreg.year
  have hmin := g.localParts_minute
  obtain ⟨h5, h6, h8⟩ := g.localParts_five
  cases hz : g.zone with
  | utc =>
    have hsome : scanZone (leapyear g.localParts) g.localParts Zone.utc.text = some g.localParts := rfl
    rw [hz, Zone.minutes, add_zero] at hmin
    rw [hsome]
    exact hreg.shifted.of_eq hmin h6
  | offset west hour minute =>
    obtain ⟨stored, hscan, hlow, hhour, hminute⟩ := g.scanOffset west hour minute
    have hlen : ¬ 7 + (Zone.offset west hour minute).values.length < 8 := by simp [Zone.values]; omega
    have hm : (minute.map fun m : Fin 60 => (m : ℕ)).getD 0 < 60 := by cases minute <;> simp
    have hh := hour.isLt
    have hleap' : leapyear g.localParts = isLeap (stored 0 * 100 + stored 1) := by
      rw [hlow 0 (by omega), hlow 1 (by omega), hleap]
    obtain ⟨b0, b1, b2, b3, b4, b5⟩ := hreg
    simp only [← hlow _ (show 0 < 7 by omega), ← hlow _ (show 1 < 7 by omega), ← hlow _ (show 2 < 7 by omega),
      ← hlow _ (show 3 < 7 by omega), ← hlow _ (show 4 < 7 by omega), ← hlow _ (show 5 < 7 by omega)] at b0 b1 b2 b3 b4 b5
    have hstored : minuteOf stored = g.utcMinute + (Zone.offset west hour minute).minutes := by
      rw [← hz, ← hmin, minuteOf, minuteOf, hlow 0 (by omega), hlow 1 (by omega), hlow 2 (by omega), hlow 3 (by omega),
        hlow 4 (by omega), hlow 5 (by omega)]
    have hsecond : stored 6 = g.rest.seconds := (hlow 6 (by omega)).trans h6
    unfold minuteOf at hstored
    cases west with
    | true =>
      have hzone : scanZone (leapyear g.localParts) g.localParts (Zone.offset true hour minute).text =
          carryParts (leapyear g.localParts) 6
            (Function.update (Function.update stored 4 (stored 4 + stored 7)) 5 (stored 5 + stored 8)) := by
        change scanZone _ _ ('-' :: (Zone.offset true hour minute).text.tail) = _
        simp only [scanZone, hscan, hlen]
        cases carryParts _ _ _ <;> simp
      have hz : (Zone.offset true hour minute).minutes = -(stored 7 * 60 + stored 8) := by rw [hhour, hminute]; rfl
      rw [hzone]
      refine (carryParts_spec ?_ ⟨?_, ?_, ?_, ?_, ?_, ?_⟩).of_eq ?_ ?_
      · simpa using hleap'
      · simpa using b0
      · simpa using b1
      · simpa using b2
      · simpa using b3
      · simp
        omega
      · simp
        omega
      · simp [minuteOf]
        omega
      · simpa using hsecond
    | false =>
      have hzone : scanZone (leapyear g.localParts) g.localParts (Zone.offset false hour minute).text =
          borrowParts (leapyear g.localParts) 6
            (Function.update (Function.update stored 4 (stored 4 - stored 7)) 5 (stored 5 - stored 8)) := by
        change scanZone _ _ ('+' :: (Zone.offset false hour minute).text.tail) = _
        simp only [scanZone, hscan, hlen]
        cases borrowParts _ _ _ <;> simp
      have hz : (Zone.offset false hour minute).minutes = stored 7 * 60 + stored 8 := by rw [hhour, hminute]; rfl
      rw [hzone]
      refine (borrowParts_spec ?_ ⟨?_, ?_, ?_, ?_, ?_, ?_⟩).of_eq ?_ ?_
      · simpa using hleap'
      · simpa using b0
      · simpa using b1
      · simpa using b2
      · simpa using b3
      · simp
        omega
      · simp
        omega
      · simp [minuteOf]
        omega
      · simpa using hsecond

theorem checkTimeSyntax_text : ∃ r, checkTimeSyntax g.text = r.map (fun parts =>
      (parts, (⟨g.fractionText ++ g.zone.text, readLen (g.keptDigits.length + 1)⟩ : Fraction))) ∧
    Shifted g.utcMinute g.rest.seconds r := by
  have hreg := g.localParts_regular
  refine ⟨_, ?_, g.scanZone_text⟩
  have hlen : g.values.length = 5 + g.rest.values.length := by simp [values]; omega
  have hrest : g.rest.values.length ≤ 2 := by cases g.rest <;> simp [Rest.values]
  have hstop : 0 + g.values.length = 7 ∨ Stops (g.fractionText ++ g.zone.text) := by
    right
    cases hf : g.fraction with
    | none => simpa [fractionText, hf] using g.zone.text_stops
    | some f =>
      have hmark : f.mark.isDigit = false := by rcases f.mark_ok with h | h <;> rw [h] <;> decide
      simpa [fractionText, hf, Stops] using hmark
  have hscan : scanParts 7 0 (fun _ => 0) (partsText 0 g.values ++ (g.fractionText ++ g.zone.text)) =
      some (0 + g.values.length, store (fun _ => 0) 0 g.values, g.fractionText ++ g.zone.text) :=
    scanParts_text g.values_ok (by omega) hstop
  have hday : ¬ mdays (leapyear g.localParts) (g.localParts 2) ≤ g.localParts 3 := by
    rw [leapyear_eq hreg.year, mdays_eq, ← monthLength_of_lt _ hreg.month.1 hreg.month.2, not_le]
    exact hreg.day.2.trans_eq (add_zero _)
  unfold checkTimeSyntax
  rw [g.text_eq, hscan]
  dsimp only
  rw [zeroFill, if_neg (by omega), ← g.text_eq]
  change checkFrom g.text.length g.localParts _ = _
  rw [checkFrom, if_neg hday, g.scanFraction_text]

end GeneralizedTime

theorem scanFraction_inv {n : ℕ} {p' : List Char} {fraction : Fraction} (h : scanFraction n p = some (fraction, p')) :
    ∃ f : Option FractionPart, p = (f.map fun f => f.mark :: f.digits).getD [] ++ p' := by
  cases p with
  | nil =>
    cases h
    exact ⟨none, rfl⟩
  | cons mark ds =>
    rw [scanFraction] at h
    dsimp only at h
    by_cases hmark : mark = '.' ∨ mark = ','
    · rw [if_pos hmark] at h
      by_cases hnil : ds.takeWhile Char.isDigit = []
      · rw [if_pos hnil] at h
        cases h
      · rw [if_neg hnil] at h
        cases h
        refine ⟨some ⟨mark, hmark, ds.takeWhile Char.isDigit, hnil, fun c hc => mem_takeWhile_imp hc⟩, ?_⟩
        simp [takeWhile_append_dropWhile]
    · rw [if_neg hmark] at h
      cases h
      exact ⟨none, rfl⟩

theorem scanZone_inv {leap : Bool} {parts parts' : Parts} (h : scanZone leap parts p = some parts') : ∃ z : Zone, p = z.text := by
  cases p with
  | nil => cases h
  | cons c p =>
    rw [scanZone] at h
    by_cases hZ : c = 'Z'
    · rw [if_pos hZ] at h
      by_cases hp : p = []
      · exact ⟨.utc, by rw [hZ, hp]; rfl⟩
      · rw [if_pos hp] at h
        cases h
    rw [if_neg hZ] at h
    by_cases hsign : c = '+' ∨ c = '-'
    · rw [if_pos hsign] at h
      cases hscan : scanParts 9 7 parts p with
      | none =>
        rw [hscan] at h
        cases h
      | some r =>
        obtain ⟨part, stored, p'⟩ := r
        obtain ⟨vs, hvs, rfl, rfl, -, hle⟩ := scanParts_inv (by omega) hscan
        rw [hscan] at h
        dsimp only at h
        by_cases hpart : 7 + vs.length < 8
        · rw [if_pos hpart] at h
          cases h
        rw [if_neg hpart] at h
        have hend : p' = [] := by
          by_contra hne
          split at h
          · cases h
          · rw [if_pos hne] at h
            cases h
        have hwest : c = if c = '-' then '-' else '+' := by rcases hsign with rfl | rfl <;> rfl
        rw [hend]
        match vs, hvs, hle with
        | [], _, _ => simp at hpart
        | [hour], ⟨hh, _⟩, _ =>
          have hlt : hour < 24 := by simpa [ceiling] using hh
          refine ⟨.offset (decide (c = '-')) ⟨hour, hlt⟩ none, ?_⟩
          simpa [Zone.text, partsText, shown] using hwest
        | [hour, minute], ⟨hh, hm, _⟩, _ =>
          have hlt : hour < 24 := by simpa [ceiling] using hh
          have hlt' : minute < 60 := by simpa [ceiling] using hm
          refine ⟨.offset (decide (c = '-')) ⟨hour, hlt⟩ (some ⟨minute, hlt'⟩), ?_⟩
          simpa [Zone.text, partsText, shown] using hwest
    · rw [if_neg hsign] at h
      cases h

theorem checkFrom_inv {n : ℕ} {parts : Parts} {r : Parts × Fraction} (h : checkFrom n parts p = some r) :
    parts 3 < mdays (leapyear parts) (parts 2) ∧
      ∃ (f : Option FractionPart) (z : Zone), p = (f.map fun f => f.mark :: f.digits).getD [] ++ z.text := by
  rw [checkFrom] at h
  by_cases hday : mdays (leapyear parts) (parts 2) ≤ parts 3
  · rw [if_pos hday] at h
    cases h
  rw [if_neg hday] at h
  refine ⟨not_le.mp hday, ?_⟩
  cases hfrac : scanFraction n p with
  | none =>
    rw [hfrac] at h
    cases h
  | some fr =>
    obtain ⟨fraction, p'⟩ := fr
    obtain ⟨f, rfl⟩ := scanFraction_inv hfrac
    rw [hfrac] at h
    obtain ⟨parts', hzone, -⟩ := Option.map_eq_some_iff.mp h
    obtain ⟨z, rfl⟩ := scanZone_inv hzone
    exact ⟨f, z, rfl⟩

theorem rest_inv {part : ℕ} (hp : part = 5) (h : PartsOk part vs) (hlen : vs.length ≤ 2) : ∃ r : Rest, vs = r.values := by
  subst hp
  match vs, h, hlen with
  | [], _, _ => exact ⟨.hour, rfl⟩
  | [m], ⟨hm, _⟩, _ =>
    have hlt : m < 60 := by simpa [ceiling] using hm
    exact ⟨.minute ⟨m, hlt⟩, rfl⟩
  | [m, s], ⟨hm, hs, _⟩, _ =>
    have hlt : m < 60 := by simpa [ceiling] using hm
    have hlt' : s < 61 := by
      simp [ceiling] at hs
      omega
    exact ⟨.second ⟨m, hlt⟩ ⟨s, hlt'⟩, rfl⟩

theorem values_inv (h : PartsOk 0 vs) (h5 : 5 ≤ vs.length) (h7 : vs.length ≤ 7) :
    ∃ (c y m d hour : ℕ) (r : Rest), vs = c :: y :: m :: d :: hour :: r.values ∧ c < 100 ∧ y < 100 ∧ m < 12 ∧ hour < 24 := by
  match vs, h, h5, h7 with
  | c :: y :: m :: d :: hour :: rest, ⟨hc, hy, hm, _, hh, hrest⟩, _, h7 =>
    have hlen : rest.length ≤ 2 := by
      simp only [length_cons] at h7
      omega
    obtain ⟨r, rfl⟩ := rest_inv rfl hrest hlen
    exact ⟨c, y, m, d, hour, r, rfl, by simpa [ceiling] using hc, by simpa [ceiling] using hy, by simpa [ceiling] using hm,
      by simpa [ceiling] using hh⟩
  | [], _, h5, _ | [_], _, h5, _ | [_, _], _, h5, _ | [_, _, _], _, h5, _ | [_, _, _, _], _, h5, _ => simp at h5

theorem checkTimeSyntax_inv {val : List Char} (h : generalizedTimeValidate val = true) : ∃ g : GeneralizedTime, g.text = val := by
  rw [generalizedTimeValidate, Option.isSome_iff_exists] at h
  obtain ⟨⟨parts, fraction⟩, h⟩ := h
  rw [checkTimeSyntax] at h
  cases hscan : scanParts 7 0 (fun _ => 0) val with
  | none =>
    rw [hscan] at h
    cases h
  | some r =>
    obtain ⟨part, stored, p⟩ := r
    obtain ⟨vs, hvs, rfl, rfl, rfl, hle⟩ := scanParts_inv (by omega) hscan
    rw [hscan] at h
    dsimp only at h
    by_cases hpart : 0 + vs.length < 5
    · rw [if_pos hpart] at h
      cases h
    rw [if_neg hpart, zeroFill] at h
    obtain ⟨hday, f, z, rfl⟩ := checkFrom_inv h
    obtain ⟨c, y, m, d, hour, r, rfl, hc, hy, hm, hh⟩ := values_inv hvs (by omega) (by omega)
    have hlt : (d : ℤ) < monthLength (c * 100 + y) m := by
      have hleap := @leapyear_eq (fun j => (((c :: y :: m :: d :: hour :: r.values).getD j 0 : ℕ) : ℤ))
        ⟨Int.natCast_nonneg _, Int.ofNat_lt.mpr hy⟩
      rw [hleap, mdays_eq] at hday
      rw [monthLength_of_lt _ (Int.natCast_nonneg _) (Int.ofNat_lt.mpr hm)]
      exact hday
    refine ⟨⟨⟨c, hc⟩, ⟨y, hy⟩, ⟨m, hm⟩, d, hlt, ⟨hour, hh⟩, r, f, z⟩, ?_⟩
    rw [GeneralizedTime.text_eq]
    rfl

end Slapd
end ReOpenLDAP
