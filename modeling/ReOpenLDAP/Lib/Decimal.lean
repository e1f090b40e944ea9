import Mathlib.Data.Char
import Mathlib.Data.List.TakeWhile
import Mathlib.Tactic.FieldSimp
import Mathlib.Tactic.IntervalCases
import Mathlib.Tactic.Ring
import ReOpenLDAP.Lib.Cmp

/-!
# Lib.Decimal

Decimal digits as characters.

* `fraction`  — what digits after the point stand for; `trimZeros` drops what does not count.
-/

namespace ReOpenLDAP
namespace Decimal

open Cmp List

def digit (v : ℕ) : Char := Char.ofNat ('0'.toNat + v)

def value (c : Char) : ℕ := c.toNat - '0'.toNat

def Digits (ds : List Char) : Prop := ∀ c ∈ ds, c.isDigit = true

instance (ds : List Char) : Decidable (Digits ds) := decidable_of_iff (ds.all Char.isDigit = true) List.all_eq_true

theorem isDigit_iff {c : Char} : c.isDigit = true ↔ 48 ≤ c.toNat ∧ c.toNat ≤ 57 := by
  simp [Char.isDigit, UInt32.le_iff_toNat_le]

variable {v w : ℕ} {ds ds' : List Char}

theorem toNat_digit (h : v < 10) : (digit v).toNat = 48 + v := by
  interval_cases v <;> rfl

theorem isDigit_digit (h : v < 10) : (digit v).isDigit = true := by
  rw [isDigit_iff, toNat_digit h]
  omega

@[simp] theorem value_digit (h : v < 10) : value (digit v) = v := by
  unfold value
  rw [toNat_digit h]
  simp

theorem value_lt {c : Char} (h : c.isDigit = true) : value c < 10 := by
  have := isDigit_iff.mp h
  unfold value
  simp
  omega

theorem digit_value {c : Char} (h : c.isDigit = true) : digit (value c) = c := by
  have hc := isDigit_iff.mp h
  have hv : 48 + value c = c.toNat := by
    unfold value
    simp
    omega
  rw [digit, show '0'.toNat + value c = c.toNat from hv, Char.ofNat_toNat]

theorem digit_lt_iff (hv : v < 10) (hw : w < 10) : digit v < digit w ↔ v < w := by
  rw [Char.lt_def, UInt32.lt_iff_toNat_lt]
  change (digit v).toNat < (digit w).toNat ↔ v < w
  rw [toNat_digit hv, toNat_digit hw]
  omega

def number (ds : List Char) : ℕ := ds.foldl (fun r c => r * 10 + value c) 0

theorem number_foldl (r : ℕ) (ds : List Char) :
    ds.foldl (fun r c => r * 10 + value c) r = r * 10 ^ ds.length + number ds := by
  induction ds generalizing r with
  | nil => simp [number]
  | cons c ds ih =>
    have hn : number (c :: ds) = (0 * 10 + value c) * 10 ^ ds.length + number ds := ih _
    rw [foldl_cons, ih, hn, length_cons, pow_succ]
    ring

theorem number_append (s t : List Char) : number (s ++ t) = number s * 10 ^ t.length + number t := by
  rw [number, foldl_append, number_foldl]
  rfl

theorem number_cons (c : Char) (ds : List Char) : number (c :: ds) = value c * 10 ^ ds.length + number ds := by
  rw [number, foldl_cons, number_foldl, zero_mul, zero_add]

theorem number_lt (h : Digits ds) : number ds < 10 ^ ds.length := by
  induction ds with
  | nil => exact one_pos
  | cons c ds ih =>
    obtain ⟨hc, hds⟩ := List.forall_mem_cons.mp h
    have hv := value_lt hc
    have hlt := ih hds
    rw [number_cons, length_cons, pow_succ]
    nlinarith

theorem value_pos {c : Char} (hc : c.isDigit = true) (h0 : c ≠ '0') : 0 < value c := by
  refine Nat.pos_of_ne_zero fun hz => h0 ?_
  rw [← digit_value hc, hz]
  rfl

theorem pow_le_number (h : Digits ds) (hne : ds ≠ []) (h0 : ds.head? ≠ some '0') : 10 ^ (ds.length - 1) ≤ number ds := by
  obtain ⟨c, ds, rfl⟩ := exists_cons_of_ne_nil hne
  have hc := value_pos (h c (mem_cons_self ..)) fun hc => h0 (by rw [hc]; rfl)
  rw [number_cons, length_cons, Nat.add_sub_cancel]
  exact Nat.le_add_right_of_le (Nat.le_mul_of_pos_left _ hc)

theorem number_pos (h : Digits ds) (hne : ds ≠ []) (h0 : ds.head? ≠ some '0') : 0 < number ds :=
  Nat.lt_of_lt_of_le (Nat.pow_pos (by omega)) (pow_le_number h hne h0)

theorem span_digits (h : Digits ds) : ds.takeWhile Char.isDigit = ds ∧ ds.dropWhile Char.isDigit = [] :=
  ⟨List.takeWhile_eq_self_iff.mpr h, List.dropWhile_eq_nil_iff.mpr h⟩

theorem digits_toDigits (n : ℕ) : Digits (Nat.toDigits 10 n) :=
  fun _ hc => Nat.isDigit_of_mem_toDigits (by decide) (by decide) hc

theorem number_toDigits (n : ℕ) : number (Nat.toDigits 10 n) = n := by
  have hfold : ∀ (l : List Char) (r : ℕ), l.foldl (fun r c => r * 10 + value c) r = Nat.ofDigitChars 10 l r := by
    intro l
    induction l with
    | nil => exact fun r => (Nat.ofDigitChars_nil).symm
    | cons c l ih =>
      intro r
      rw [foldl_cons, ih, Nat.ofDigitChars_cons, Nat.mul_comm]
      rfl
  rw [number, hfold, Nat.ofDigitChars_ten_toDigits]

theorem toDigits_head {n : ℕ} (hn : 0 < n) : (Nat.toDigits 10 n).head? ≠ some '0' := by
  induction n using Nat.strongRecOn with
  | ind n ih =>
    rcases Nat.lt_or_ge n 10 with hlt | hge
    · have hall : ∀ n ∈ List.range 10, 0 < n → Nat.digitChar n ≠ '0' := by decide
      rw [Nat.toDigits_of_lt_base hlt]
      simpa using hall n (List.mem_range.mpr hlt) hn
    · rw [Nat.toDigits_of_base_le (by decide) hge, List.head?_append_of_ne_nil _ Nat.toDigits_ne_nil]
      exact ih (n / 10) (by omega) (by omega)

def twoDigits (v : ℕ) : List Char := [digit (v / 10), digit (v % 10)]

@[simp] theorem length_twoDigits (v : ℕ) : (twoDigits v).length = 2 := rfl

theorem digits_twoDigits (h : v < 100) : Digits (twoDigits v) := by
  intro c hc
  simp only [twoDigits, mem_cons, not_mem_nil, or_false] at hc
  rcases hc with rfl | rfl
  · exact isDigit_digit (by omega)
  · exact isDigit_digit (by omega)

theorem twoDigits_value {c d : Char} (hc : c.isDigit = true) (hd : d.isDigit = true) :
    twoDigits (value c * 10 + value d) = [c, d] := by
  have h1 := value_lt hc
  have h2 := value_lt hd
  rw [twoDigits, show (value c * 10 + value d) / 10 = value c by omega, show (value c * 10 + value d) % 10 = value d by omega,
    digit_value hc, digit_value hd]

/-! ## Comparing -/

theorem cmp_digit (hv : v < 10) (hw : w < 10) : cmp (digit v) (digit w) = cmp v w :=
  cmp_congr (digit_lt_iff hv hw) (digit_lt_iff hw hv)

theorem cmp_number (h : Digits ds) (h' : Digits ds') (hlen : ds.length = ds'.length) :
    cmp ds ds' = cmp (number ds) (number ds') := by
  induction ds generalizing ds' with
  | nil =>
    cases ds' with
    | nil => rfl
    | cons _ _ => cases hlen
  | cons c ds ih =>
    cases ds' with
    | nil => cases hlen
    | cons c' ds' =>
      obtain ⟨hc, hds⟩ := List.forall_mem_cons.mp h
      obtain ⟨hc', hds'⟩ := List.forall_mem_cons.mp h'
      have hlen' := Nat.succ_inj.mp hlen
      have hlt := number_lt hds
      have hlt' := number_lt hds'
      have hdigit := cmp_digit (value_lt hc) (value_lt hc')
      rw [digit_value hc, digit_value hc'] at hdigit
      have hlow : (number ds : ℤ) < 10 ^ ds.length := by exact_mod_cast hlt
      have hlow' : (number ds' : ℤ) < 10 ^ ds.length := by rw [hlen']; exact_mod_cast hlt'
      have hplace := @cmp_mul_add _ (value c) _ (value c') _ (Int.natCast_nonneg (number ds)) hlow (Int.natCast_nonneg _) hlow'
      rw [cmp_natCast, cmp_natCast] at hplace
      rw [cmp_cons, ih hds hds' hlen', hdigit, number_cons, number_cons, ← hlen', ← hplace,
        ← cmp_natCast (value c * 10 ^ ds.length + number ds)]
      push_cast
      rfl

theorem cmp_twoDigits_append (hv : v < 100) (hw : w < 100) (s t : List Char) :
    cmp (twoDigits v ++ s) (twoDigits w ++ t) = (cmp v w).then (cmp s t) := by
  simp only [twoDigits, cons_append, List.nil_append, cmp_cons]
  rw [cmp_digit (by omega) (by omega), cmp_digit (by omega) (by omega), ← Ordering.then_assoc, cmp_div_mod _ _ 10]

theorem cmp_twoDigits (hv : v < 100) (hw : w < 100) : cmp (twoDigits v) (twoDigits w) = cmp v w := by
  have h := cmp_twoDigits_append hv hw [] []
  rwa [List.append_nil, List.append_nil, (cmp_eq_iff [] []).mpr rfl, Ordering.then_eq] at h

def fraction : List Char → ℚ
  | [] => 0
  | c :: ds => (value c + fraction ds) / 10

def trimZeros : List Char → List Char
  | [] => []
  | c :: ds => if trimZeros ds = [] ∧ c = '0' then [] else c :: trimZeros ds

theorem fraction_nonneg (ds : List Char) : 0 ≤ fraction ds := by
  induction ds with
  | nil => exact le_refl _
  | cons c ds ih =>
    rw [fraction]
    exact div_nonneg (add_nonneg (Nat.cast_nonneg _) ih) (by norm_num)

theorem fraction_lt_one (h : Digits ds) : fraction ds < 1 := by
  induction ds with
  | nil => exact one_pos
  | cons c ds ih =>
    have hlt := ih fun x hx => h x (mem_cons_of_mem _ hx)
    have hc : (value c : ℚ) ≤ 9 := by exact_mod_cast Nat.le_of_lt_succ (value_lt (h c (mem_cons_self ..)))
    rw [fraction]
    linarith

theorem fraction_trimZeros (ds : List Char) : fraction (trimZeros ds) = fraction ds := by
  induction ds with
  | nil => rfl
  | cons c ds ih =>
    rw [trimZeros]
    split_ifs with h
    · rw [h.1] at ih
      rw [fraction, fraction, ← ih, h.2]
      simp [fraction, value]
    · rw [fraction, fraction, ih]

theorem trimZeros_append_singleton (ds : List Char) (c : Char) :
    trimZeros (ds ++ [c]) = if c = '0' then trimZeros ds else ds ++ [c] := by
  induction ds with
  | nil => simp [trimZeros]
  | cons d ds ih =>
    rw [cons_append, trimZeros, ih]
    by_cases hc : c = '0'
    · simp only [hc, if_true, trimZeros]
    · simp [hc]

theorem trimZeros_eq_nil (hd : Digits ds) (h : fraction ds = 0) : trimZeros ds = [] := by
  induction ds with
  | nil => rfl
  | cons c ds ih =>
    obtain ⟨hc, hds⟩ := List.forall_mem_cons.mp hd
    have hv : (0 : ℚ) ≤ value c := Nat.cast_nonneg _
    have hf := fraction_nonneg ds
    rw [fraction] at h
    have hzero : value c = 0 := by
      have : (value c : ℚ) = 0 := by linarith
      exact_mod_cast this
    have hc0 : c = '0' := by rw [← digit_value hc, hzero]; rfl
    rw [trimZeros, if_pos ⟨ih hds (by linarith), hc0⟩]

theorem cmp_fraction_cons {c c' : Char} (h : Digits (c :: ds)) (h' : Digits (c' :: ds')) :
    cmp (fraction (c :: ds)) (fraction (c' :: ds')) = (cmp c c').then (cmp (fraction ds) (fraction ds')) := by
  obtain ⟨hc, hds⟩ := List.forall_mem_cons.mp h
  obtain ⟨hc', hds'⟩ := List.forall_mem_cons.mp h'
  have hcmp : cmp c c' = cmp (value c) (value c') := by
    rw [← cmp_digit (value_lt hc) (value_lt hc'), digit_value hc, digit_value hc']
  have h0 := fraction_nonneg ds
  have h1 := fraction_lt_one hds
  have h0' := fraction_nonneg ds'
  have h1' := fraction_lt_one hds'
  rw [hcmp, fraction, fraction]
  rcases lt_trichotomy (value c) (value c') with hlt | heq | hlt
  · have : (value c : ℚ) + 1 ≤ value c' := by exact_mod_cast hlt
    rw [cmp_eq_lt_iff _ _ |>.mpr hlt, Ordering.lt_then, cmp_eq_lt_iff]
    linarith
  · rw [heq, cmp_self_eq_eq, Ordering.eq_then]
    refine cmp_congr ?_ ?_
    · constructor <;> intro _ <;> linarith
    · constructor <;> intro _ <;> linarith
  · have : (value c' : ℚ) + 1 ≤ value c := by exact_mod_cast hlt
    rw [cmp_eq_gt_iff _ _ |>.mpr hlt, Ordering.gt_then, cmp_eq_gt_iff]
    linarith

theorem trimZeros_prefix (ds : List Char) : trimZeros ds <+: ds := by
  induction ds with
  | nil => exact prefix_rfl
  | cons c ds ih =>
    rw [trimZeros]
    split_ifs
    · exact nil_prefix
    · exact prefix_cons_inj c |>.mpr ih

theorem trimZeros_trimZeros (ds : List Char) : trimZeros (trimZeros ds) = trimZeros ds := by
  induction ds with
  | nil => rfl
  | cons c ds ih =>
    by_cases h : trimZeros ds = [] ∧ c = '0'
    · rw [trimZeros, if_pos h, trimZeros]
    · rw [trimZeros, if_neg h, trimZeros, ih, if_neg h]

theorem trimZeros_eq_of_fraction_eq (h : Digits ds) (h' : Digits ds')
    (heq : fraction ds = fraction ds') : trimZeros ds = trimZeros ds' := by
  induction ds generalizing ds' with
  | nil => exact (trimZeros_eq_nil h' heq.symm).symm
  | cons c ds ih =>
    cases ds' with
    | nil => exact trimZeros_eq_nil h heq
    | cons c' ds' =>
      have hcmp := cmp_fraction_cons h h'
      rw [heq, cmp_self_eq_eq, eq_comm, Ordering.then_eq_eq, cmp_eq_eq_iff, cmp_eq_eq_iff] at hcmp
      rw [trimZeros, trimZeros, ih (List.forall_mem_cons.mp h).2 (List.forall_mem_cons.mp h').2 hcmp.2, hcmp.1]

theorem cmp_digits (h : Digits ds) (h' : Digits ds') :
    cmp ds ds' = (cmp (fraction ds) (fraction ds')).then (cmp ds.length ds'.length) := by
  induction ds generalizing ds' with
  | nil =>
    cases ds' with
    | nil => rfl
    | cons c' ds' =>
      have hlen : cmp ([] : List Char).length (c' :: ds').length = .lt := rfl
      rw [hlen]
      rcases (fraction_nonneg (c' :: ds')).eq_or_lt with h0 | h0
      · rw [← h0, fraction, cmp_self_eq_eq]
        rfl
      · rw [fraction, cmp_eq_lt_iff _ _ |>.mpr h0]
        rfl
  | cons c ds ih =>
    cases ds' with
    | nil =>
      have hlen : cmp (c :: ds).length ([] : List Char).length = .gt := rfl
      rw [hlen]
      rcases (fraction_nonneg (c :: ds)).eq_or_lt with h0 | h0
      · rw [← h0, fraction, cmp_self_eq_eq]
        rfl
      · rw [show fraction [] = 0 from rfl, cmp_eq_gt_iff _ _ |>.mpr h0]
        rfl
    | cons c' ds' =>
      rw [cmp_cons, cmp_fraction_cons h h', ih (List.forall_mem_cons.mp h).2 (List.forall_mem_cons.mp h').2,
        length_cons, length_cons, cmp_add_right, Ordering.then_assoc]

end Decimal
end ReOpenLDAP
