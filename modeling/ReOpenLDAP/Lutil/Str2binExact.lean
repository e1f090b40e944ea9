import ReOpenLDAP.Lib.TwosComplement
import ReOpenLDAP.Lutil.Str2bin

/-!
# Lutil.Str2binExact

When `lutil_str2bin` of a decimal integer is the integer.

* `lutilStr2bin_exact` — right for all texts and buffers whose lengths are as large as an `int`.
-/

namespace ReOpenLDAP
namespace Lutil

open Ber Bytes Decimal List

structure DecimalText where
  neg : Bool
  digits : List Char
  isDigits : Digits digits
  ne_nil : digits ≠ []
  no_leading : digits = ['0'] ∨ digits.head? ≠ some '0'

namespace DecimalText

def text (t : DecimalText) : List Char := if t.neg then '-' :: t.digits else t.digits

def value (t : DecimalText) : ℤ := if t.neg then -(number t.digits : ℤ) else number t.digits

/-- `-0` -/
def minusZero : DecimalText := ⟨true, ['0'], by decide, by simp, .inl rfl⟩

end DecimalText

/-- The digits at `pin`, into a buffer of `bufsiz` bytes, and their sign. -/
def decimalBranch (bufsiz : ℕ) (isNeg : Bool) (pin : List Char) : Option (List ℕ) := do
  let num ← convert bufsiz pin
  let num ← signByte bufsiz (if isNeg then 0xff else 0) (if isNeg then negate num else num)
  some num.reverse

/-- A `ber_len_t` as an `int`. -/
def toInt (n : ℕ) : ℤ := (n : ℤ).bmod (2 ^ 32)

/-- `lutil_str2bin`, whose lengths are `int`. A negative `len` is counted down until it overflows, and a negative `bufsiz` has the
end of the buffer in front of it; both have no result. -/
def lutilStr2binInt (hex : List Char → ℕ → Option (List ℕ)) (s : List Char) (bufsiz : ℕ) : Option (List ℕ) :=
  if bufsiz < s.length then none
  else if hexText s then hex s bufsiz
  else
    let isNeg : Bool := s[0]? == some '-'
    let len := toInt s.length - if isNeg then 1 else 0
    if len < 0 ∨ toInt bufsiz < 0 then none
    else decimalBranch (toInt bufsiz).toNat isNeg ((if isNeg then s.tail else s).take len.toNat)

theorem toInt_of_lt {n : ℕ} (h : n < 2 ^ 31) : toInt n = n := by
  unfold toInt
  rw [Int.bmod_eq_of_le] <;> omega

theorem toInt_lt (n : ℕ) : toInt n < 2 ^ 31 := by
  have := Int.bmod_lt (x := (n : ℤ)) (m := 2 ^ 32) (by omega)
  unfold toInt
  omega

theorem xor_sign : ∀ b < 256, b ^^^ 0xff = 255 - b ∧ b ^^^ 0 = b ∧ (b &&& 0x80 = 0 ↔ b < 128) := by decide +kernel

theorem beNat_complement {n u : ℕ} (h : u < 256 ^ n) : beNat ((beBytes n u).map (· ^^^ 0xff)) + u + 1 = 256 ^ n := by
  induction n generalizing u with
  | zero =>
    obtain rfl : u = 0 := by simpa using h
    rfl
  | succ n ih =>
    have hrest := ih (Nat.div_lt_of_lt_mul (by rwa [← pow_succ']))
    rw [beBytes_succ, map_append, map_singleton, beNat_append_singleton, (xor_sign _ (Nat.mod_lt u (by omega))).1, pow_succ]
    omega

def signedBytes (neg k u : ℕ) : List ℕ :=
  (if 128 * 256 ^ k ≤ u then [neg] else []) ++ (beBytes (k + 1) u).map (· ^^^ neg)

section

variable {n k u neg : ℕ}

theorem signByte_eq (hu : u < 256 ^ (k + 1)) (hroom : 128 * 256 ^ k ≤ u → k + 1 < n) :
    (signByte n neg ((leBytes (k + 1) u).map (· ^^^ neg))).map List.reverse = some (signedBytes neg k u) := by
  have hpos : 0 < 256 ^ k := Nat.pow_pos (by omega)
  have htop : u / 256 ^ k < 256 := Nat.div_lt_of_lt_mul (by rwa [← pow_succ])
  have hlast : ((leBytes (k + 1) u).map (· ^^^ neg)).getLast? = some (u / 256 ^ k ^^^ neg) := by
    rw [leBytes_add, map_append, List.getLast?_append, ← Nat.mod_eq_of_lt htop]
    simp [leBytes]
  have hbe : ((leBytes (k + 1) u).map (· ^^^ neg)).reverse = (beBytes (k + 1) u).map (· ^^^ neg) := by
    rw [← map_reverse, reverse_leBytes]
  have hbit : (u / 256 ^ k) &&& 0x80 = 0 ↔ ¬128 * 256 ^ k ≤ u := by
    rw [(xor_sign _ htop).2.2, ← Nat.le_div_iff_mul_le hpos, Nat.not_le]
  unfold signByte signedBytes
  rw [hlast]
  simp only [Nat.xor_assoc, Nat.xor_self, Nat.xor_zero, ne_eq, hbit, not_not, length_map, length_leBytes]
  by_cases hwrong : 128 * 256 ^ k ≤ u
  · rw [if_pos hwrong, if_pos hwrong, if_pos (hroom hwrong), Option.map_some, reverse_append, hbe]
    rfl
  · rw [if_neg hwrong, if_neg hwrong, Option.map_some, hbe]
    rfl

theorem signedBytes_lt (hneg : neg = 0 ∨ neg = 0xff) : ∀ b ∈ signedBytes neg k u, b < 256 := by
  intro b hb
  rcases List.mem_append.mp hb with hsign | hb
  · split at hsign
    · obtain rfl := List.mem_singleton.mp hsign
      omega
    · cases hsign
  · obtain ⟨c, hc, rfl⟩ := List.mem_map.mp hb
    have hlt := beBytes_lt _ _ c hc
    rcases hneg with rfl | rfl
    · simpa using hlt
    · rw [(xor_sign c hlt).1]
      omega

theorem head_signed (hu : u < 256 ^ (k + 1)) (hneg : neg = 0 ∨ neg = 0xff) :
    ∃ t, u / 256 ^ k % 256 ^^^ neg = t ∧ t < 256 ∧ (t < 128 ↔ (neg = 0 ↔ ¬128 * 256 ^ k ≤ u)) := by
  have hpos : 0 < 256 ^ k := Nat.pow_pos (by omega)
  have htop : u / 256 ^ k < 256 := Nat.div_lt_of_lt_mul (by rwa [← pow_succ])
  rw [Nat.mod_eq_of_lt htop, ← Nat.le_div_iff_mul_le hpos]
  obtain ⟨hone, hzero, -⟩ := xor_sign _ htop
  rcases hneg with rfl | rfl
  · exact ⟨_, hzero, htop, by simp⟩
  · refine ⟨_, hone, by omega, by omega⟩

theorem beNat_signed (hu : u < 256 ^ (k + 1)) (hneg : neg = 0 ∨ neg = 0xff) :
    (beNat ((beBytes (k + 1) u).map (· ^^^ neg)) : ℤ) = if neg = 0 then (u : ℤ) else 256 ^ (k + 1) - 1 - u := by
  rcases hneg with rfl | rfl
  · simp only [Nat.xor_zero, List.map_id', beNat_beBytes hu, if_true]
  · have hsum := beNat_complement hu
    have hcast : ((256 ^ (k + 1) : ℕ) : ℤ) = 256 ^ (k + 1) := by push_cast; rfl
    rw [if_neg (by omega)]
    omega

theorem twos_signedBytes (hu : u < 256 ^ (k + 1)) (hneg : neg = 0 ∨ neg = 0xff) :
    twos (signedBytes neg k u) = if neg = 0 then (u : ℤ) else -1 - u := by
  have hvalue := beNat_signed hu hneg
  have hlen : ((beBytes (k + 1) u).map (· ^^^ neg)).length = k + 1 := by simp
  obtain ⟨t, ht, htlt, hsign⟩ := head_signed hu hneg
  unfold signedBytes
  by_cases hwrong : 128 * 256 ^ k ≤ u
  · rw [if_pos hwrong, singleton_append, twos_cons, hvalue, hlen]
    rcases hneg with rfl | rfl
    · simp [signed]
    · rw [if_neg (by omega), if_neg (by omega), signed, if_neg (by omega)]
      push_cast
      ring
  · rw [if_neg hwrong, List.nil_append]
    have hcons : (beBytes (k + 1) u).map (· ^^^ neg) = t :: (beBytes k u).map (· ^^^ neg) := by
      rw [beBytes, map_cons, ht]
    rw [hcons] at hvalue ⊢
    rw [twos, hvalue]
    simp only [length_map, length_beBytes]
    rcases hneg with rfl | rfl
    · rw [if_pos rfl, if_pos (hsign.mpr (by simp [hwrong]))]
      simp
    · rw [if_neg (by omega), if_neg (by rw [hsign]; simp [hwrong]), if_neg (by omega)]
      ring

theorem signed_content {der : Bool} (hu : u < 256 ^ (k + 1)) (hmin : 0 < k → 128 * 256 ^ (k - 1) ≤ u) (hneg : neg = 0 ∨ neg = 0xff) :
    IsContent der (signedBytes neg k u) (.int (if neg = 0 then (u : ℤ) else -1 - u)) := by
  refine ⟨?_, signedBytes_lt hneg, twos_signedBytes hu hneg, fun b c more heq => ?_⟩
  · simp [signedBytes, beBytes]
  · obtain ⟨t, ht, htlt, hsign⟩ := head_signed hu hneg
    unfold signedBytes at heq
    rw [beBytes, map_cons, ht] at heq
    by_cases hwrong : 128 * 256 ^ k ≤ u
    · rw [if_pos hwrong] at heq
      simp only [cons_append, List.nil_append, List.cons.injEq] at heq
      obtain ⟨rfl, rfl, -⟩ := heq
      omega
    · rw [if_neg hwrong, List.nil_append] at heq
      rcases k with _ | k
      · simp [beBytes] at heq
      · rw [beBytes, map_cons] at heq
        simp only [List.cons.injEq] at heq
        obtain ⟨rfl, rfl, -⟩ := heq
        have hsecond := hmin (Nat.succ_pos k)
        rw [Nat.succ_sub_one, ← Nat.le_div_iff_mul_le (Nat.pow_pos (by omega))] at hsecond
        have hsplit : u / 256 ^ (k + 1) = u / 256 ^ k / 256 := by rw [Nat.div_div_eq_div_mul, ← pow_succ]
        have htop : u / 256 ^ (k + 1) < 256 := Nat.div_lt_of_lt_mul (by rwa [← pow_succ])
        have hlow := xor_sign (u / 256 ^ k % 256) (Nat.mod_lt _ (by omega))
        have hhigh := xor_sign (u / 256 ^ (k + 1) % 256) (Nat.mod_lt _ (by omega))
        rcases hneg with rfl | rfl
        · rw [hhigh.2.1] at ht
          rw [hlow.2.1]
          omega
        · rw [hhigh.1] at ht
          rw [hlow.1]
          omega

end

/-! ## No more bytes than the buffer has -/

section

variable {n : ℕ}
variable {r : List ℕ × ℕ} {num num' : List ℕ}

theorem addPart_length {out : List ℕ} {part : ℕ} (h : addPart out part = some r) : r.1.length = out.length := by
  induction out generalizing part r with
  | nil =>
    cases part with
    | zero => rw [← Option.some.inj h]
    | succ part => simp [addPart] at h
  | cons b out ih =>
    cases part with
    | zero => rw [← Option.some.inj h]
    | succ part =>
      obtain ⟨r', hr, rfl⟩ := Option.map_eq_some_iff.mp h
      simp [ih hr]

theorem addAt_length {j part : ℕ} {tmp : List ℕ} (h : addAt j part tmp = some r) : r.1.length = tmp.length := by
  obtain ⟨r', hr, rfl⟩ := Option.map_eq_some_iff.mp h
  have hlen := addPart_length hr
  rw [length_drop] at hlen
  simp only [length_append, length_take, hlen]
  omega

theorem addNew_length {out : List ℕ} {new : ℕ} (h : addNew out new = some r) : r.1.length = out.length := by
  induction out generalizing new r with
  | nil => simp [addNew] at h
  | cons b out ih =>
    rw [addNew] at h
    split at h
    · rw [← Option.some.inj h]
      simp
    · obtain ⟨r', hr, rfl⟩ := Option.map_eq_some_iff.mp h
      simp [ih hr]

theorem scaleFrom_length {i len : ℕ} {inp tmp : List ℕ} (h : scaleFrom i inp tmp len = some r) : r.1.length = tmp.length := by
  induction inp generalizing i tmp len with
  | nil => rw [← Option.some.inj h]
  | cons b inp ih =>
    obtain ⟨r₁, h₁, h⟩ := Option.bind_eq_some_iff.mp h
    obtain ⟨r₂, h₂, h⟩ := Option.bind_eq_some_iff.mp h
    rw [ih h, addAt_length h₂, addAt_length h₁]

theorem scale_length {new : ℕ} (h : scale n new num = some num') : num'.length ≤ n := by
  obtain ⟨r₁, h₁, h⟩ := Option.bind_eq_some_iff.mp h
  obtain ⟨r₂, h₂, h⟩ := Option.bind_eq_some_iff.mp h
  rw [← Option.some.inj h, length_take, addNew_length h₂, scaleFrom_length h₁, length_replicate]
  exact Nat.min_le_right _ _

theorem convertLoop_length {chunk : ℕ} {pin : List Char} (hnum : num.length ≤ n)
    (h : convertLoop n chunk pin num = some num') : num'.length ≤ n := by
  induction hlen : pin.length using Nat.strong_induction_on generalizing chunk pin num with
  | _ l ih =>
    rw [convertLoop] at h
    split at h
    · rwa [← Option.some.inj h]
    · rename_i hgo
      obtain ⟨hne, hchunk⟩ := not_or.mp hgo
      have hpos := List.length_pos_iff.mpr hne
      obtain ⟨num₁, hscale, h⟩ := Option.bind_eq_some_iff.mp h
      exact ih (pin.drop chunk).length (by rw [length_drop]; omega) (scale_length hscale) h rfl

theorem increment_length (bs : List ℕ) : (increment bs).length = bs.length := by
  induction bs with
  | nil => rfl
  | cons b bs ih =>
    rw [increment]
    split <;> simp [ih]

theorem signByte_length {neg : ℕ} (hnum : num.length ≤ n) (h : signByte n neg num = some num') : num'.length ≤ n := by
  unfold signByte at h
  split at h
  · cases h
  · split at h
    · split at h
      · rw [← Option.some.inj h, length_append, length_singleton]
        omega
      · cases h
    · rwa [← Option.some.inj h]

theorem decimalBranch_length {isNeg : Bool} {pin : List Char} {bytes : List ℕ} (h : decimalBranch n isNeg pin = some bytes) :
    bytes.length ≤ n := by
  obtain ⟨num, hnum, h⟩ := Option.bind_eq_some_iff.mp h
  obtain ⟨num', hnum', h⟩ := Option.bind_eq_some_iff.mp h
  have hlen := convertLoop_length (Nat.zero_le n) hnum
  rw [← Option.some.inj h, length_reverse]
  refine signByte_length ?_ hnum'
  split
  · rwa [negate, increment_length, length_map]
  · exact hlen

end

theorem decimalBranch_content {n : ℕ} (t : DecimalText) (hzero : ¬(t.neg = true ∧ t.digits = ['0'])) (hfits : FitsIn n t.value) :
    ∃ bytes, decimalBranch (n + 1) t.neg t.digits = some bytes ∧ IsContent false bytes (.int t.value) := by
  obtain ⟨neg, ds, hd, hne, h0⟩ := t
  simp only [DecimalText.value] at hzero hfits ⊢
  have hpow : 256 ^ (n + 1) = 256 ^ n * 256 := pow_succ 256 n
  have hcast : ((256 ^ n : ℕ) : ℤ) = 256 ^ n := by push_cast; rfl
  have hsmall : number ds < 256 ^ (n + 1) := by
    obtain ⟨hlo, hhi⟩ := hfits
    rw [← hcast] at hlo hhi
    cases neg <;> simp only [Bool.false_eq_true, if_true, if_false] at hlo hhi <;> omega
  have hconv := convert_leBytes hd hne h0 hsmall (Nat.succ_pos n)
  cases neg with
  | false =>
    simp only [Bool.false_eq_true, if_false] at hfits ⊢
    obtain ⟨k, hk⟩ := Nat.exists_eq_add_of_lt (lt_max_of_lt_left (show 0 < 1 from one_pos) : 0 < max 1 (size (number ds)))
    rw [Nat.zero_add] at hk
    have hu : number ds < 256 ^ (k + 1) := size_le_iff.mp (by omega)
    have hmin : 0 < k → 128 * 256 ^ (k - 1) ≤ number ds := fun hpos => by
      have hlow : 256 ^ (k - 1 + 1) ≤ number ds := lt_size_iff.mp (by omega)
      rw [pow_succ] at hlow
      omega
    have hroom : 128 * 256 ^ k ≤ number ds → k + 1 < n + 1 := fun hle => by
      have hlt : 256 ^ k < 256 ^ n := by
        have := hfits.2
        rw [← hcast] at this
        omega
      have := (Nat.pow_lt_pow_iff_right (by omega)).mp hlt
      omega
    have hsign := @signByte_eq _ _ _ 0 hu hroom
    simp only [Nat.xor_zero, List.map_id'] at hsign
    obtain ⟨num, hnum, hbytes⟩ := Option.map_eq_some_iff.mp hsign
    refine ⟨_, ?_, signed_content hu hmin (.inl rfl)⟩
    rw [hk] at hconv
    simp [decimalBranch, hconv, hnum, hbytes]
  | true =>
    simp only [if_true] at hfits ⊢
    have h0' := h0.resolve_left fun h => hzero ⟨rfl, h⟩
    have hpos := number_pos hd hne h0'
    obtain ⟨u, hu⟩ := Nat.exists_eq_add_of_lt hpos
    obtain ⟨k, hk⟩ := Nat.exists_eq_add_of_lt (size_pos hpos)
    rw [Nat.zero_add] at hk hu
    rw [max_eq_right (size_pos hpos), hk, hu] at hconv
    have hsize := size_le_iff.mp (Nat.le_of_eq hk)
    rw [hu] at hsize
    have hmin : 0 < k → 128 * 256 ^ (k - 1) ≤ u := fun hkpos => by
      have hlow : 256 ^ (k - 1 + 1) ≤ number ds := lt_size_iff.mp (by omega)
      have hone := Nat.one_le_pow (k - 1) 256 (by omega)
      rw [pow_succ] at hlow
      omega
    have hroom : 128 * 256 ^ k ≤ u → k + 1 < n + 1 := fun hle => by
      have hlt : 256 ^ k < 256 ^ n := by
        have := hfits.1
        rw [← hcast] at this
        omega
      have := (Nat.pow_lt_pow_iff_right (by omega)).mp hlt
      omega
    obtain ⟨num, hnum, hbytes⟩ := Option.map_eq_some_iff.mp (@signByte_eq _ _ _ 0xff (show u < 256 ^ (k + 1) by omega) hroom)
    have hvalue : -(number ds : ℤ) = if 0xff = 0 then (u : ℤ) else -1 - u := by
      rw [if_neg (by omega), hu]
      push_cast
      ring
    rw [hvalue]
    refine ⟨_, ?_, signed_content (by omega) hmin (.inr rfl)⟩
    simp [decimalBranch, hconv, negate, increment_not hsize, hnum, hbytes]

theorem hexText_decimalText (t : DecimalText) : hexText t.text = false := by
  obtain ⟨hplain, hminus⟩ := hexText_decimal t.isDigits
  unfold DecimalText.text
  split
  · exact hminus
  · exact hplain

theorem decimalText_minus (t : DecimalText) : (t.text[0]? == some '-') = t.neg := by
  unfold DecimalText.text
  cases hneg : t.neg with
  | true => rfl
  | false =>
    simp only [Bool.false_eq_true, if_false]
    rw [beq_eq_false_iff_ne]
    exact fun h => absurd (t.isDigits _ (mem_of_getElem? h)) (by decide)

theorem decimalText_pin (t : DecimalText) : (if t.neg = true then t.text.tail else t.text) = t.digits := by
  unfold DecimalText.text
  split <;> rfl

theorem lutilStr2binInt_text (hex : List Char → ℕ → Option (List ℕ)) (t : DecimalText) {bufsiz : ℕ} (hroom : t.text.length ≤ bufsiz) :
    lutilStr2binInt hex t.text bufsiz =
      if toInt t.text.length - (if t.neg then 1 else 0) < 0 ∨ toInt bufsiz < 0 then none
      else decimalBranch (toInt bufsiz).toNat t.neg (t.digits.take (toInt t.text.length - if t.neg then 1 else 0).toNat) := by
  unfold lutilStr2binInt
  rw [if_neg (by omega), hexText_decimalText, if_neg Bool.false_ne_true]
  simp only [decimalText_minus, decimalText_pin]

theorem length_text (t : DecimalText) : t.text.length = t.digits.length + if t.neg then 1 else 0 := by
  unfold DecimalText.text
  split <;> simp

def DecimalText.prefixText (t : DecimalText) (k : ℕ) (hk : 0 < k) (hlong : 1 < t.digits.length) : DecimalText where
  neg := t.neg
  digits := t.digits.take k
  isDigits c hc := t.isDigits c (mem_of_mem_take hc)
  ne_nil h := by
    rw [take_eq_nil_iff] at h
    exact h.elim (by omega) t.ne_nil
  no_leading := by
    refine .inr ?_
    rw [List.head?_take, if_neg (by omega)]
    exact t.no_leading.resolve_left fun h => by simp [h] at hlong

theorem value_prefixText (t : DecimalText) {k : ℕ} (hk : 0 < k) (hlong : 1 < t.digits.length) (hshort : k < t.digits.length) :
    (t.prefixText k hk hlong).value ≠ t.value ∧
      ∀ n, FitsIn n t.value → FitsIn n (t.prefixText k hk hlong).value := by
  have hfirst : number (t.digits.take k) < number t.digits := by
    have hpos := number_pos (t.prefixText k hk hlong).isDigits (t.prefixText k hk hlong).ne_nil
      ((t.prefixText k hk hlong).no_leading.resolve_left fun h => by
        have hhead := t.no_leading.resolve_left fun h => by simp [h] at hlong
        have htake := congrArg List.head? h
        simp only [DecimalText.prefixText, List.head?_take, if_neg (show ¬k = 0 by omega)] at htake
        exact hhead htake)
    have happ := number_append (t.digits.take k) (t.digits.drop k)
    rw [take_append_drop] at happ
    have hten : 10 ^ 1 ≤ 10 ^ (t.digits.drop k).length := Nat.pow_le_pow_right (by omega) (by rw [length_drop]; omega)
    have hmul := Nat.mul_le_mul_left (number (t.digits.take k)) hten
    simp only [DecimalText.prefixText] at hpos
    omega
  have hval : (t.prefixText k hk hlong).value = if t.neg then -(number (t.digits.take k) : ℤ) else number (t.digits.take k) := rfl
  rw [hval]
  refine ⟨?_, fun n hfits => hfits.between ?_⟩
  · unfold DecimalText.value
    split <;> omega
  · unfold DecimalText.value
    split
    · exact .inr ⟨by omega, by omega⟩
    · exact .inl ⟨by omega, by omega⟩

variable {len : ℕ}

theorem int_len_short {digits : ℕ} {neg : Bool} (hlen : len = digits + if neg then 1 else 0) (hlong : 2 ^ 31 ≤ len) :
    (toInt len - if neg then 1 else 0).toNat < digits ∧ 1 < digits := by
  have hlt := toInt_lt len
  cases neg with
  | true =>
    simp only [if_true] at hlen ⊢
    omega
  | false =>
    simp only [Bool.false_eq_true, if_false] at hlen ⊢
    omega

theorem int_len_all {digits : ℕ} {neg : Bool} (hlen : len = digits + if neg then 1 else 0) (hshort : len < 2 ^ 31) :
    (toInt len - if neg then 1 else 0).toNat = digits ∧ 0 ≤ toInt len - if neg then 1 else 0 := by
  rw [toInt_of_lt hshort]
  cases neg with
  | true =>
    simp only [if_true] at hlen ⊢
    omega
  | false =>
    simp only [Bool.false_eq_true, if_false] at hlen ⊢
    omega

theorem decimalBranch_nil (n : ℕ) (isNeg : Bool) : decimalBranch n isNeg [] = none := by
  have hconv : convert n [] = some [] := by
    rw [convert, convertLoop, dif_pos (.inl rfl)]
  cases isNeg <;> simp [decimalBranch, hconv, negate, increment, signByte]

theorem decimalBranch_prefix (t : DecimalText) {n : ℕ} {bytes : List ℕ} (hmany : 1 < t.digits.length)
    (hshort : len < t.digits.length) (hfits : FitsIn n t.value) (hcontent : IsContent true bytes (.int t.value)) :
    decimalBranch (n + 1) t.neg (t.digits.take len) ≠ some bytes := by
  intro hsome
  by_cases hzero : len = 0
  · rw [hzero, take_zero, decimalBranch_nil] at hsome
    cases hsome
  · obtain ⟨hne, hkept⟩ := value_prefixText t (Nat.pos_of_ne_zero hzero) hmany hshort
    have hplain : ¬((t.prefixText len (Nat.pos_of_ne_zero hzero) hmany).neg = true ∧
        (t.prefixText len (Nat.pos_of_ne_zero hzero) hmany).digits = ['0']) := by
      rintro ⟨-, h⟩
      have hhead := t.no_leading.resolve_left fun h => by simp [h] at hmany
      have htake := congrArg List.head? h
      simp only [DecimalText.prefixText, List.head?_take, if_neg hzero] at htake
      exact hhead htake
    obtain ⟨bytes', hsome', hcontent'⟩ := decimalBranch_content _ hplain (hkept n hfits)
    have hsame : bytes' = bytes := Option.some.inj (hsome'.symm.trans hsome)
    rw [hsame] at hcontent'
    exact hne (hcontent'.2.2.1.symm.trans hcontent.2.2.1)

theorem decimalBranch_minusZero (n : ℕ) : decimalBranch n true ['0'] = if 1 < n then some [0xff, 0] else none := by
  cases n with
  | zero =>
    rw [decimalBranch, convert, convertLoop]
    simp [scale, scaleFrom, addNew]
  | succ n =>
    have hconv := convert_leBytes (n := n + 1) (show Digits ['0'] by decide) (by simp) (.inl rfl) (by simp [number, value]) (Nat.succ_pos n)
    have hnum : leBytes (max 1 (size (number ['0']))) (number ['0']) = [0] := by simp [number, value]
    have hneg : negate [0] = [0] := by decide
    rw [hnum] at hconv
    by_cases hroom : 1 < n + 1
    · have hsign : signByte (n + 1) 0xff [0] = some [0, 0xff] := by simp [signByte, hroom]
      simp [decimalBranch, hconv, hneg, hsign, hroom]
    · have hsign : signByte (n + 1) 0xff [0] = none := by simp [signByte, hroom]
      simp [decimalBranch, hconv, hneg, hsign, hroom]

theorem fitsIn_text (t : DecimalText) {n : ℕ} (hroom : t.text.length ≤ n + 1) : FitsIn n t.value := by
  have hlength := length_text t
  have hpow : (10 : ℕ) ^ t.digits.length ≤ 10 * 256 ^ n := by
    calc 10 ^ t.digits.length ≤ 10 ^ (n + 1) := Nat.pow_le_pow_right (by omega) (by omega)
      _ = 10 * 10 ^ n := pow_succ' 10 n
      _ ≤ 10 * 256 ^ n := Nat.mul_le_mul_left _ (Nat.pow_le_pow_left (by omega) n)
  have hlt := number_lt t.isDigits
  have hcast : ((256 ^ n : ℕ) : ℤ) = 256 ^ n := by push_cast; rfl
  unfold FitsIn DecimalText.value
  rw [← hcast]
  split <;> omega

theorem lutilStr2binInt_content (hex : List Char → ℕ → Option (List ℕ)) (t : DecimalText) {bufsiz n : ℕ}
    (hroom : t.text.length ≤ bufsiz) (hzero : ¬(t.neg = true ∧ t.digits = ['0'])) (hshort : t.text.length < 2 ^ 31)
    (hn : toInt bufsiz = n + 1) (hfits : FitsIn n t.value) :
    ∃ bytes, lutilStr2binInt hex t.text bufsiz = some bytes ∧ IsContent true bytes (.int t.value) := by
  have hsize : (toInt bufsiz).toNat = n + 1 := by rw [hn]; omega
  obtain ⟨hlen, hnonneg⟩ := int_len_all (length_text t) hshort
  obtain ⟨bytes, hsome, hcontent⟩ := decimalBranch_content t hzero hfits
  refine ⟨bytes, ?_, hcontent⟩
  rw [lutilStr2binInt_text hex t hroom, if_neg (not_or.mpr ⟨not_lt.mpr hnonneg, by omega⟩), hlen, take_length, hsize]
  exact hsome

/-- Decimal text is converted to the shortest two's complement of its integer if and only if it is not `-0`, its length is one of an
`int`, and the integer fits in as many bytes as the size of the buffer is as an `int`. -/
theorem lutilStr2bin_exact (hex : List Char → ℕ → Option (List ℕ)) (t : DecimalText) (bufsiz : ℕ) (hroom : t.text.length ≤ bufsiz) :
    (∃ bytes, lutilStr2binInt hex t.text bufsiz = some bytes ∧ IsContent true bytes (.int t.value)) ↔
      ¬(t.neg = true ∧ t.digits = ['0']) ∧ t.text.length < 2 ^ 31 ∧ ∃ n : ℕ, toInt bufsiz = n + 1 ∧ FitsIn n t.value := by
  have hlength := length_text t
  have hdigits := List.length_pos_iff.mpr t.ne_nil
  rw [lutilStr2binInt_text hex t hroom]
  constructor
  · rintro ⟨bytes, hsome, hcontent⟩
    rw [Option.ite_none_left_eq_some] at hsome
    obtain ⟨hint, hsome⟩ := hsome
    have hpos := length_pos_of_ne_nil hcontent.1
    have hfit := decimalBranch_length hsome
    obtain ⟨k, hk⟩ := Nat.exists_eq_add_of_lt hpos
    rw [Nat.zero_add] at hk
    have hsize : ((toInt bufsiz).toNat : ℤ) = toInt bufsiz := Int.toNat_of_nonneg (by omega)
    obtain ⟨n, hn⟩ : ∃ n, (toInt bufsiz).toNat = n + 1 := ⟨(toInt bufsiz).toNat - 1, by omega⟩
    have hfits : FitsIn n t.value := (content_fitsIn hcontent hk).mono (by omega)
    refine ⟨?_, ?_, n, by omega, hfits⟩
    · rintro ⟨hneg, hzero⟩
      have htwo : t.text.length = 2 := by rw [hlength, hneg, hzero]; rfl
      obtain ⟨htake, -⟩ := int_len_all hlength (show t.text.length < 2 ^ 31 by omega)
      rw [htake, take_length, hneg, hzero, decimalBranch_minusZero] at hsome
      obtain ⟨-, hbytes⟩ := Option.ite_none_right_eq_some.mp hsome
      have htwos := hcontent.2.2.1
      rw [← Option.some.inj hbytes, DecimalText.value, hneg, hzero] at htwos
      exact absurd htwos (by decide)
    · by_contra hlong
      obtain ⟨hshort, hmany⟩ := int_len_short hlength (Nat.le_of_not_lt hlong)
      generalize (toInt t.text.length - if t.neg = true then (1 : ℤ) else 0).toNat = len at hsome hshort
      rw [hn] at hsome
      exact decimalBranch_prefix t hmany hshort hfits hcontent hsome
  · rintro ⟨hzero, hshort, n, hn, hfits⟩
    rw [← lutilStr2binInt_text hex t hroom]
    exact lutilStr2binInt_content hex t hroom hzero hshort hn hfits

theorem lutilStr2bin_exact_minus :
    ∃ bytes, lutilStr2binInt (fun _ _ => none) ['-', '1', '2', '8'] 4 = some bytes ∧ IsContent true bytes (.int (-128)) :=
  (lutilStr2bin_exact (fun _ _ => none) ⟨true, ['1', '2', '8'], by decide, by simp, .inr (by simp)⟩ 4 (by decide)).mpr
    ⟨by decide, by decide, 3, by decide, by decide⟩

/-- `-0` comes out as -256. -/
theorem lutilStr2bin_minusZero :
    twos [0xff, 0] = -256 ∧ ∀ hex : List Char → ℕ → Option (List ℕ), lutilStr2binInt hex ['-', '0'] 2 = some [0xff, 0] ∧
      ¬∃ bytes, lutilStr2binInt hex ['-', '0'] 2 = some bytes ∧ IsContent true bytes (.int 0) := by
  have hsome : ∀ hex : List Char → ℕ → Option (List ℕ), lutilStr2binInt hex DecimalText.minusZero.text 2 = some [0xff, 0] := by
    intro hex
    obtain ⟨htake, hnonneg⟩ := int_len_all (length_text DecimalText.minusZero) (by decide)
    have htwo : toInt 2 = 2 := toInt_of_lt (by omega)
    rw [lutilStr2binInt_text hex DecimalText.minusZero (Nat.le_refl 2), htwo, if_neg (by omega), htake, take_length]
    exact decimalBranch_minusZero 2
  refine ⟨by decide, fun hex => ⟨hsome hex, ?_⟩⟩
  rintro ⟨bytes, hbytes, hcontent⟩
  rw [← Option.some.inj ((hsome hex).symm.trans hbytes)] at hcontent
  exact absurd hcontent.2.2.1 (by decide)

end Lutil
end ReOpenLDAP
