import ReOpenLDAP.Lib.BerOctets

/-!
# Lib.Hex

Hexadecimal digits, in both letter cases.

* `number`    — the number that digits are.
-/

namespace ReOpenLDAP
namespace Hex

open Bytes Ber List

/-- `ASCII_HEX` -/
def isHex (c : Char) : Bool := c.isDigit || ('a' ≤ c && c ≤ 'f') || ('A' ≤ c && c ≤ 'F')

def value (c : Char) : ℕ :=
  if c.isDigit then c.toNat - '0'.toNat else if 'a' ≤ c then c.toNat - 'a'.toNat + 10 else c.toNat - 'A'.toNat + 10

def number (cs : List Char) : ℕ := cs.foldl (fun r c => r * 16 + value c) 0

structure IsText (cs : List Char) : Prop where
  isHex : ∀ c ∈ cs, isHex c = true
  ne_nil : cs ≠ []
  no_leading : cs = ['0'] ∨ cs.head? ≠ some '0'

def hexChars : List Char := "0123456789abcdefABCDEF".toList

theorem mem_hexChars {c : Char} (h : isHex c = true) : c ∈ hexChars := by
  have hrange : c.toNat ∈ List.range 128 := by
    rw [mem_range]
    simp only [isHex, Char.isDigit, Bool.or_eq_true, Bool.and_eq_true, decide_eq_true_eq, Char.le_def, UInt32.le_iff_toNat_le] at h
    simp only [Char.toNat, Char.reduceVal, UInt32.reduceToNat] at h ⊢
    omega
  have hall : ∀ n ∈ List.range 128, isHex (Char.ofNat n) = true → Char.ofNat n ∈ hexChars := by decide +kernel
  have hc := hall _ hrange
  rw [Char.ofNat_toNat] at hc
  exact hc h

theorem value_lt {c : Char} (h : isHex c = true) : value c < 16 := by
  have hall : hexChars.all (fun c => value c < 16) = true := by decide
  exact of_decide_eq_true (List.all_eq_true.mp hall c (mem_hexChars h))

theorem value_pos {c : Char} (h : isHex c = true) (hzero : c ≠ '0') : 0 < value c := by
  have hall : hexChars.all (fun c => c = '0' ∨ 0 < value c) = true := by decide
  exact (of_decide_eq_true (List.all_eq_true.mp hall c (mem_hexChars h))).resolve_left hzero

/-- `%X` of a digit. -/
def digit (v : ℕ) : Char := "0123456789ABCDEF".toList.getD v '0'

theorem digit_spec {v : ℕ} (h : v < 16) : isHex (digit v) = true ∧ value (digit v) = v ∧ (digit v = '0' ↔ v = 0) := by
  have hall : ∀ v ∈ List.range 16, isHex (digit v) = true ∧ value (digit v) = v ∧ (digit v = '0' ↔ v = 0) := by decide
  exact hall v (List.mem_range.mpr h)

theorem number_append_singleton (cs : List Char) (c : Char) : number (cs ++ [c]) = number cs * 16 + value c := by
  simp [number, foldl_append]

theorem number_append (cs ds : List Char) : number (cs ++ ds) = number cs * 16 ^ ds.length + number ds := by
  induction ds using List.reverseRecOn with
  | nil => simp [number]
  | append_singleton ds d ih =>
    rw [← append_assoc, number_append_singleton, ih, number_append_singleton, length_append, length_singleton, pow_succ]
    ring

theorem number_lt {cs : List Char} (h : ∀ c ∈ cs, isHex c = true) : number cs < 16 ^ cs.length := by
  induction cs using List.reverseRecOn with
  | nil => simp [number]
  | append_singleton cs c ih =>
    have hcs := ih fun d hd => h d (by simp [hd])
    have hc := value_lt (h c (by simp))
    rw [number_append_singleton, length_append, length_singleton, pow_succ]
    omega

theorem le_number {cs : List Char} (h : IsText cs) : cs = ['0'] ∨ 16 ^ (cs.length - 1) ≤ number cs := by
  refine h.no_leading.imp id fun hzero => ?_
  obtain ⟨c, cs, rfl⟩ := exists_cons_of_ne_nil h.ne_nil
  have hpos := value_pos (h.isHex c (by simp)) fun hc => hzero (by simp [hc])
  have hone : number [c] = value c := by simp [number]
  rw [← singleton_append, number_append, hone, length_append, length_singleton, Nat.add_sub_cancel_left]
  exact Nat.le_add_right_of_le (Nat.le_mul_of_pos_left _ hpos)

def digits (n : ℕ) : List Char := if _h : n < 16 then [digit n] else digits (n / 16) ++ [digit (n % 16)]
termination_by n
decreasing_by omega

theorem digits_of_lt {n : ℕ} (h : n < 16) : digits n = [digit n] := by rw [digits, dif_pos h]

theorem digits_of_le {n : ℕ} (h : 16 ≤ n) : digits n = digits (n / 16) ++ [digit (n % 16)] := by rw [digits, dif_neg (by omega)]

theorem number_digits (n : ℕ) : number (digits n) = n := by
  induction n using Nat.strong_induction_on with
  | _ n ih =>
    by_cases h : n < 16
    · rw [digits_of_lt h]
      simp [number, digit_spec h]
    · rw [digits_of_le (by omega), number_append_singleton, ih (n / 16) (by omega), (digit_spec (Nat.mod_lt n (by omega))).2.1]
      omega

theorem digits_inj {n m : ℕ} (h : digits n = digits m) : n = m := by
  rw [← number_digits n, h, number_digits]

theorem isText_digits (n : ℕ) : IsText (digits n) := by
  induction n using Nat.strong_induction_on with
  | _ n ih =>
    by_cases h : n < 16
    · rw [digits_of_lt h]
      obtain ⟨hhex, -, hzero⟩ := digit_spec h
      refine ⟨by simpa using hhex, by simp, ?_⟩
      by_cases hn : n = 0
      · rw [hzero.mpr hn]
        exact .inl rfl
      · exact .inr (by simpa [hzero] using hn)
    · obtain ⟨hhex, hne, hlead⟩ := ih (n / 16) (by omega)
      rw [digits_of_le (by omega)]
      refine ⟨List.forall_mem_append.mpr ⟨hhex, by simpa using (digit_spec (Nat.mod_lt n (by omega))).1⟩, by simp, .inr ?_⟩
      rw [List.head?_append_of_ne_nil _ hne]
      refine hlead.resolve_left fun hzero => ?_
      have hnum := number_digits (n / 16)
      rw [hzero] at hnum
      have : number ['0'] = 0 := rfl
      omega

/-- `%02X` of each byte. -/
def pairs (bs : List ℕ) : List Char := bs.flatMap fun b => [digit (b / 16), digit (b % 16)]

theorem pairs_cons (b : ℕ) (bs : List ℕ) : pairs (b :: bs) = digit (b / 16) :: digit (b % 16) :: pairs bs := rfl

theorem pairs_append (bs cs : List ℕ) : pairs (bs ++ cs) = pairs bs ++ pairs cs := flatMap_append

theorem pairs_beBytes {k n : ℕ} (hlt : n < 256 ^ (k + 1)) (hle : k = 0 ∨ 256 ^ k ≤ n) :
    pairs (beBytes (k + 1) n) = if n / 256 ^ k < 16 then '0' :: digits n else digits n := by
  induction k generalizing n with
  | zero =>
    have hn : n < 256 := by simpa using hlt
    rw [show beBytes (0 + 1) n = [n] by simp [beBytes, Nat.mod_eq_of_lt hn], pow_zero, Nat.div_one]
    by_cases hsmall : n < 16
    · rw [if_pos hsmall, digits_of_lt hsmall]
      simp only [pairs, flatMap_cons, flatMap_nil, List.append_nil, Nat.div_eq_of_lt hsmall, Nat.mod_eq_of_lt hsmall]
      rfl
    · rw [if_neg hsmall, digits_of_le (by omega), digits_of_lt (by omega)]
      simp [pairs]
  | succ k ih =>
    have hle' : 256 ^ (k + 1) ≤ n := hle.resolve_left (Nat.succ_ne_zero k)
    have hpos : 0 < 256 ^ k := Nat.pow_pos (by omega)
    have hbig : 256 ≤ n := by
      rw [pow_succ] at hle'
      omega
    have hrest := ih (n := n / 256) (Nat.div_lt_of_lt_mul (by rwa [← pow_succ'])) (by
      rw [Nat.le_div_iff_mul_le (by omega), ← pow_succ]
      exact .inr hle')
    rw [Nat.div_div_eq_div_mul, ← pow_succ'] at hrest
    have hdigits : digits n = digits (n / 256) ++ [digit (n / 16 % 16), digit (n % 16)] := by
      rw [digits_of_le (n := n) (by omega), digits_of_le (n := n / 16) (by omega), Nat.div_div_eq_div_mul, append_assoc]
      rfl
    have hlast : pairs [n % 256] = [digit (n / 16 % 16), digit (n % 16)] := by
      simp only [pairs, flatMap_cons, flatMap_nil, List.append_nil]
      rw [show n % 256 / 16 = n / 16 % 16 by omega, show n % 256 % 16 = n % 16 by omega]
    rw [beBytes_succ, pairs_append, hrest, hlast, hdigits]
    split <;> rfl

end Hex
end ReOpenLDAP
