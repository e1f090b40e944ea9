import Mathlib.Data.Char
import Mathlib.Tactic.Ring
import ReOpenLDAP.Lib.Cmp

/-!
# Lib.Radix

Numbers as texts of a fixed width, in a base up to 16.

* `padded`      — the digits of a number, with zeros in front; `value` is the number again.
-/

namespace ReOpenLDAP
namespace Radix

open Cmp List

def IsDigits (b : ℕ) (text : List Char) : Prop := ∀ c ∈ text, ∃ d < b, Nat.digitChar d = c

def padded (b : ℕ) : ℕ → ℕ → List Char
  | 0, _ => []
  | k + 1, n => padded b k (n / b) ++ [Nat.digitChar (n % b)]

def ofChar (c : Char) : ℕ := if c.isDigit then c.toNat - '0'.toNat else c.toNat - 'a'.toNat + 10

def value (b : ℕ) (text : List Char) : ℕ := text.foldl (fun r c => r * b + ofChar c) 0

section

variable {b k n m : ℕ} {s t : List Char}

theorem ofChar_digitChar {d : ℕ} (hd : d < 16) : ofChar (Nat.digitChar d) = d := by
  have hall : ∀ d ∈ List.range 16, ofChar (Nat.digitChar d) = d := by decide
  exact hall d (List.mem_range.mpr hd)

theorem digitChar_lt {d e : ℕ} (hd : d < 16) (he : e < 16) : Nat.digitChar d < Nat.digitChar e ↔ d < e := by
  have hall : ∀ d ∈ List.range 16, ∀ e ∈ List.range 16, Nat.digitChar d < Nat.digitChar e ↔ d < e := by decide
  exact hall d (List.mem_range.mpr hd) e (List.mem_range.mpr he)

@[simp] theorem length_padded (b k n : ℕ) : (padded b k n).length = k := by
  induction k generalizing n with
  | zero => rfl
  | succ k ih => rw [padded, length_append, ih, length_singleton]

theorem isDigits_padded (hb : 0 < b) (k n : ℕ) : IsDigits b (padded b k n) := by
  induction k generalizing n with
  | zero => exact forall_mem_nil _
  | succ k ih => exact List.forall_mem_append.mpr ⟨ih _, List.forall_mem_singleton.mpr ⟨n % b, Nat.mod_lt _ hb, rfl⟩⟩

theorem padded_zero (b k : ℕ) : padded b k 0 = List.replicate k '0' := by
  induction k with
  | zero => rfl
  | succ k ih =>
    rw [padded, Nat.zero_div, ih, Nat.zero_mod, replicate_succ']
    rfl

theorem padded_mod (b k n : ℕ) : padded b k (n % b ^ k) = padded b k n := by
  induction k generalizing n with
  | zero => rfl
  | succ k ih =>
    rw [padded, padded, pow_succ', Nat.mod_mul_right_div_self, ih, Nat.mod_mul_right_mod]

theorem pad_toDigits (hb : 1 < b) (hn : n < b ^ (k + 1)) :
    List.replicate (k + 1 - (Nat.toDigits b n).length) '0' ++ Nat.toDigits b n = padded b (k + 1) n := by
  induction k generalizing n with
  | zero =>
    rw [zero_add, pow_one] at hn
    rw [Nat.toDigits_of_lt_base hn, padded, Nat.mod_eq_of_lt hn]
    rfl
  | succ k ih =>
    if hlt : n < b then
      rw [Nat.toDigits_of_lt_base hlt, padded, Nat.div_eq_of_lt hlt, Nat.mod_eq_of_lt hlt, padded_zero]
      rfl
    else
      have hdiv : n / b < b ^ (k + 1) := Nat.div_lt_of_lt_mul (by rwa [mul_comm, ← pow_succ])
      rw [Nat.toDigits_of_base_le hb (not_lt.mp hlt), padded, ← ih hdiv, length_append, length_singleton,
        Nat.add_sub_add_right, append_assoc]

theorem value_append_singleton (b : ℕ) (s : List Char) (c : Char) : value b (s ++ [c]) = value b s * b + ofChar c :=
  foldl_append ..

theorem value_padded (hb : 0 < b) (hb' : b ≤ 16) (hn : n < b ^ k) : value b (padded b k n) = n := by
  induction k generalizing n with
  | zero =>
    rw [pow_zero, Nat.lt_one_iff] at hn
    exact hn.symm
  | succ k ih =>
    have hdiv : n / b < b ^ k := Nat.div_lt_of_lt_mul (by rwa [mul_comm, ← pow_succ])
    rw [padded, value_append_singleton, ih hdiv, ofChar_digitChar ((Nat.mod_lt _ hb).trans_le hb'), mul_comm]
    exact Nat.div_add_mod n b

theorem value_lt (hb' : b ≤ 16) (h : IsDigits b s) : value b s < b ^ s.length := by
  induction s using List.reverseRecOn with
  | nil => exact Nat.one_pos
  | append_singleton s c ih =>
    obtain ⟨hs, hc⟩ := List.forall_mem_append.mp h
    obtain ⟨d, hd, rfl⟩ := List.forall_mem_singleton.mp hc
    rw [value_append_singleton, ofChar_digitChar (hd.trans_le hb'), length_append, length_singleton, pow_succ]
    calc value b s * b + d < value b s * b + b := by omega
      _ = (value b s + 1) * b := by ring
      _ ≤ b ^ s.length * b := Nat.mul_le_mul_right b (ih hs)

theorem padded_value (hb' : b ≤ 16) (h : IsDigits b s) : padded b s.length (value b s) = s := by
  induction s using List.reverseRecOn with
  | nil => rfl
  | append_singleton s c ih =>
    obtain ⟨hs, hc⟩ := List.forall_mem_append.mp h
    obtain ⟨d, hd, rfl⟩ := List.forall_mem_singleton.mp hc
    have hpos : 0 < b := by omega
    rw [value_append_singleton, ofChar_digitChar (hd.trans_le hb'), length_append, length_singleton, padded,
      mul_comm, Nat.mul_add_div hpos, Nat.div_eq_of_lt hd, add_zero, ih hs, Nat.mul_add_mod, Nat.mod_eq_of_lt hd]

theorem cmp_mul_add_nat {k a c a' c' : ℕ} (hc : c < k) (hc' : c' < k) : cmp (a * k + c) (a' * k + c') = (cmp a a').then (cmp c c') := by
  have hk : 0 < k := by omega
  have hdiv : ∀ {x y : ℕ}, y < k → (x * k + y) / k = x := by
    intro x y hy
    rw [mul_comm, Nat.mul_add_div hk, Nat.div_eq_of_lt hy, add_zero]
  have hmod : ∀ {x y : ℕ}, y < k → (x * k + y) % k = y := by
    intro x y hy
    rw [mul_comm, Nat.mul_add_mod, Nat.mod_eq_of_lt hy]
  rw [← cmp_div_mod _ _ k, hdiv hc, hdiv hc', hmod hc, hmod hc']

theorem cmp_padded (hb : 0 < b) (hb' : b ≤ 16) (hn : n < b ^ k) (hm : m < b ^ k) :
    cmp (padded b k n) (padded b k m) = cmp n m := by
  induction k generalizing n m with
  | zero =>
    rw [pow_zero, Nat.lt_one_iff] at hn hm
    rw [hn, hm]
    rfl
  | succ k ih =>
    have hdiv : ∀ {x : ℕ}, x < b ^ (k + 1) → x / b < b ^ k := fun hx => Nat.div_lt_of_lt_mul (by rwa [mul_comm, ← pow_succ])
    have hlast : ∀ x : ℕ, x % b < 16 := fun x => (Nat.mod_lt _ hb).trans_le hb'
    have hdigit : cmp [Nat.digitChar (n % b)] [Nat.digitChar (m % b)] = cmp (n % b) (m % b) := by
      rw [cmp_cons, (cmp_eq_iff [] []).mpr rfl, Ordering.then_eq]
      exact cmp_congr (digitChar_lt (hlast n) (hlast m)) (digitChar_lt (hlast m) (hlast n))
    rw [padded, padded, cmp_append (by simp), ih (hdiv hn) (hdiv hm), hdigit, cmp_div_mod]

end

end Radix
end ReOpenLDAP
