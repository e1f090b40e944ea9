import Mathlib.Data.Nat.Digits.Lemmas
import ReOpenLDAP.Lib.Cmp

/-!
# Lib.Bytes

Numbers as bytes.

* `leBytes`     — the low byte first.
-/

namespace ReOpenLDAP
namespace Bytes

open Cmp List

def beBytes : ℕ → ℕ → List ℕ
  | 0, _ => []
  | n + 1, v => v / 256 ^ n % 256 :: beBytes n v

@[simp] theorem length_beBytes (n v : ℕ) : (beBytes n v).length = n := by
  induction n with
  | zero => rfl
  | succ n ih => rw [beBytes, length_cons, ih]

theorem beBytes_mod (n v : ℕ) : beBytes n (v % 256 ^ n) = beBytes n v := by
  induction n generalizing v with
  | zero => rfl
  | succ n ih =>
    have hhigh : v % 256 ^ (n + 1) / 256 ^ n % 256 = v / 256 ^ n % 256 := by
      rw [pow_succ, Nat.mod_mul_right_div_self, Nat.mod_mod]
    have hlow : v % 256 ^ (n + 1) % 256 ^ n = v % 256 ^ n := Nat.mod_mod_of_dvd _ (pow_dvd_pow _ (Nat.le_succ n))
    rw [beBytes, beBytes, hhigh, ← ih (v % 256 ^ (n + 1)), hlow, ih]

theorem beBytes_lt (n v : ℕ) : ∀ b ∈ beBytes n v, b < 256 := by
  induction n with
  | zero => simp [beBytes]
  | succ n ih =>
    intro b hb
    rcases List.mem_cons.mp hb with rfl | hb
    · exact Nat.mod_lt _ (by omega)
    · exact ih b hb

theorem cmp_beBytes {n v w : ℕ} (hv : v < 256 ^ n) (hw : w < 256 ^ n) : cmp (beBytes n v) (beBytes n w) = cmp v w := by
  induction n generalizing v w with
  | zero =>
    obtain rfl : v = 0 := by simpa using hv
    obtain rfl : w = 0 := by simpa using hw
    rfl
  | succ n ih =>
    have hpos : 0 < 256 ^ n := Nat.pow_pos (by omega)
    rw [pow_succ] at hv hw
    have hv' : v / 256 ^ n < 256 := Nat.div_lt_of_lt_mul hv
    have hw' : w / 256 ^ n < 256 := Nat.div_lt_of_lt_mul hw
    rw [beBytes, beBytes, cmp_cons, ← beBytes_mod n v, ← beBytes_mod n w, ih (Nat.mod_lt _ hpos) (Nat.mod_lt _ hpos),
      Nat.mod_eq_of_lt hv', Nat.mod_eq_of_lt hw', cmp_div_mod]

def leBytes : ℕ → ℕ → List ℕ
  | 0, _ => []
  | n + 1, v => v % 256 :: leBytes n (v / 256)

@[simp] theorem length_leBytes (n v : ℕ) : (leBytes n v).length = n := by
  induction n generalizing v with
  | zero => rfl
  | succ n ih => rw [leBytes, length_cons, ih]

@[simp] theorem leBytes_zero (n : ℕ) : leBytes n 0 = List.replicate n 0 := by
  induction n with
  | zero => rfl
  | succ n ih => rw [leBytes, Nat.zero_mod, Nat.zero_div, ih, replicate_succ]

theorem leBytes_add (m n v : ℕ) : leBytes (m + n) v = leBytes m v ++ leBytes n (v / 256 ^ m) := by
  induction m generalizing v with
  | zero => simp [leBytes]
  | succ m ih => rw [Nat.succ_add, leBytes, leBytes, ih, Nat.div_div_eq_div_mul, ← pow_succ', cons_append]

theorem take_leBytes {m n : ℕ} (h : m ≤ n) (v : ℕ) : (leBytes n v).take m = leBytes m v := by
  obtain ⟨d, rfl⟩ := Nat.exists_eq_add_of_le h
  rw [leBytes_add, take_left' (length_leBytes m v)]

theorem drop_leBytes {m n : ℕ} (h : m ≤ n) (v : ℕ) : (leBytes n v).drop m = leBytes (n - m) (v / 256 ^ m) := by
  obtain ⟨d, rfl⟩ := Nat.exists_eq_add_of_le h
  rw [leBytes_add, drop_left' (length_leBytes m v), Nat.add_sub_cancel_left]

theorem leBytes_mod {m n : ℕ} (h : n ≤ m) (v : ℕ) : leBytes n (v % 256 ^ m) = leBytes n v := by
  induction n generalizing m v with
  | zero => rfl
  | succ n ih =>
    obtain ⟨m, rfl⟩ := Nat.exists_eq_add_of_le' (Nat.lt_of_lt_of_le (Nat.succ_pos n) h)
    rw [leBytes, leBytes, pow_succ', Nat.mod_mul_right_mod, Nat.mod_mul_right_div_self, ih (by omega)]

theorem reverse_leBytes (n v : ℕ) : (leBytes n v).reverse = beBytes n v := by
  induction n generalizing v with
  | zero => rfl
  | succ n ih =>
    rw [leBytes_add, reverse_append, ih, beBytes]
    rfl

theorem beBytes_add (m n v : ℕ) : beBytes (m + n) v = beBytes m (v / 256 ^ n) ++ beBytes n v := by
  rw [← reverse_leBytes, Nat.add_comm, leBytes_add, reverse_append, reverse_leBytes, reverse_leBytes]

def size (v : ℕ) : ℕ := (Nat.digits 256 v).length

theorem size_le_iff {n v : ℕ} : size v ≤ n ↔ v < 256 ^ n := Nat.digits_length_le_iff (by omega) v

theorem lt_size_iff {n v : ℕ} : n < size v ↔ 256 ^ n ≤ v := Nat.lt_digits_length_iff (by omega) v

@[simp] theorem size_zero : size 0 = 0 := by simp [size]

theorem size_mono {v w : ℕ} (h : v ≤ w) : size v ≤ size w :=
  size_le_iff.mpr (Nat.lt_of_le_of_lt h (size_le_iff.mp (le_refl _)))

theorem size_pos {v : ℕ} (hv : 0 < v) : 0 < size v := lt_size_iff.mpr hv

theorem size_div {v : ℕ} (hv : 0 < v) : size v = size (v / 256) + 1 := by
  rw [size, Nat.digits_def' (by omega) hv]
  rfl

theorem size_div_pow {n v : ℕ} (hv : 256 ^ n ≤ v) : size v = n + size (v / 256 ^ n) := by
  induction n with
  | zero => simp
  | succ n ih =>
    have hlt : 256 ^ n < 256 ^ (n + 1) := Nat.pow_lt_pow_right (by omega) (Nat.lt_succ_self n)
    have hpos : 0 < v / 256 ^ n := Nat.div_pos (by omega) (Nat.pow_pos (by omega))
    rw [ih (by omega), size_div hpos, Nat.div_div_eq_div_mul, ← pow_succ]
    omega

theorem size_eq_of_le_of_lt {n v : ℕ} (hlo : 256 ^ n ≤ v) (hhi : v < 256 ^ (n + 1)) : size v = n + 1 :=
  Nat.le_antisymm (size_le_iff.mpr hhi) (lt_size_iff.mpr hlo)

theorem size_mul_pow {v : ℕ} (hv : 0 < v) (n : ℕ) : size (v * 256 ^ n) = size v + n := by
  obtain ⟨k, hk⟩ := Nat.exists_eq_add_of_lt (lt_size_iff.mpr (show 256 ^ 0 ≤ v from hv))
  rw [Nat.zero_add] at hk
  have hlo : 256 ^ k ≤ v := lt_size_iff.mp (by omega)
  have hhi : v < 256 ^ (k + 1) := size_le_iff.mp (by omega)
  rw [hk, Nat.add_right_comm]
  apply size_eq_of_le_of_lt
  · rw [pow_add]
    exact Nat.mul_le_mul_right _ hlo
  · rw [Nat.add_right_comm, pow_add]
    exact Nat.mul_lt_mul_of_pos_right hhi (Nat.pow_pos (by omega))

end Bytes
end ReOpenLDAP
