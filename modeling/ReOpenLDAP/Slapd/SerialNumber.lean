import ReOpenLDAP.Lutil.Str2binHex

/-!
# Slapd.SerialNumber

Serial numbers of certificates in their normal form, `'1234'H`.
-/

namespace ReOpenLDAP
namespace Slapd

open Ber Bytes Lutil List

/-- `'…'H` -/
def quote (cs : List Char) : List Char := '\'' :: cs ++ ['\'', 'H']

/-- The `sprintf` calls of `slap_bin2hex`: a single digit for a first octet that has no more. -/
def printHex (ptr : List ℕ) : List Char :=
  let first : Bool := ptr.headD 0 &&& 0xf0 == 0
  quote ((if first then [Hex.digit (ptr.headD 0 &&& 0x0f)] else []) ++ Hex.pairs (if first then ptr.tail else ptr))

def slapBin2hex (ptr : List ℕ) : Option (List Char) :=
  if 1 < ptr.length then
    if ptr.headD 0 &&& 0x80 ≠ 0 then
      if ptr.headD 0 = 0xff ∧ ptr.getD 1 0 &&& 0x80 ≠ 0 then none else some (printHex ptr)
    else if ptr.headD 0 = 0 then
      if ptr.getD 1 0 &&& 0x80 = 0 then none else some (printHex ptr.tail)
    else some (printHex ptr)
  else if ptr.length = 0 then some (printHex [0])
  else some (printHex ptr)

/-- The serial number in `serialNumberAndIssuerNormalize`: the buffer is as long as the text. -/
def normalSn (sn : List Char) : Option (List Char) := (lutilStr2binInt hexBranch sn sn.length).bind slapBin2hex

def serialText (n : ℕ) : List Char := quote (Hex.digits n)

theorem quote_inj {cs ds : List Char} (h : quote cs = quote ds) : cs = ds := by
  unfold quote at h
  exact append_cancel_right (List.cons.inj h).2

theorem serialText_inj {n m : ℕ} (h : serialText n = serialText m) : n = m := Hex.digits_inj (quote_inj h)

theorem octet_bits : ∀ b < 256, (b &&& 0xf0 = 0 ↔ b < 16) ∧ (b < 16 → b &&& 0x0f = b) ∧ (b &&& 0x80 = 0 ↔ b < 128) := by
  decide +kernel

theorem printHex_beBytes {k n : ℕ} (hlt : n < 256 ^ (k + 1)) (hle : k = 0 ∨ 256 ^ k ≤ n) : printHex (beBytes (k + 1) n) = serialText n := by
  have htop : n / 256 ^ k < 256 := Nat.div_lt_of_lt_mul (by rwa [← pow_succ])
  obtain ⟨hfirst, hdigit, -⟩ := octet_bits _ htop
  have hpairs := Hex.pairs_beBytes hlt hle
  rw [beBytes, Nat.mod_eq_of_lt htop] at hpairs ⊢
  unfold printHex serialText
  rw [headD_cons, tail_cons]
  by_cases hsmall : n / 256 ^ k < 16
  · have hrest : '0' :: ([Hex.digit (n / 256 ^ k)] ++ Hex.pairs (beBytes k n)) = '0' :: Hex.digits n := by
      rw [if_pos hsmall] at hpairs
      rw [← hpairs, Hex.pairs_cons, Nat.div_eq_of_lt hsmall, Nat.mod_eq_of_lt hsmall]
      rfl
    rw [hfirst.mpr hsmall, hdigit hsmall]
    simp only [beq_self_eq_true, if_true]
    rw [(List.cons.inj hrest).2]
  · rw [if_neg hsmall] at hpairs
    have hno : (n / 256 ^ k &&& 0xf0 == 0) = false := by simpa using fun h => hsmall (hfirst.mp h)
    rw [hno, ← hpairs]
    rfl

theorem printHex_be (n : ℕ) : printHex (be n) = serialText n := by
  obtain ⟨k, hk⟩ := Nat.exists_eq_add_of_lt (lt_max_of_lt_left (show 0 < 1 from one_pos) : 0 < max 1 (size n))
  rw [Nat.zero_add] at hk
  rw [be, hk]
  refine printHex_beBytes (size_le_iff.mp (by omega)) ?_
  by_cases hzero : k = 0
  · exact .inl hzero
  · exact .inr (lt_size_iff.mp (by omega))

theorem be_beNat {b : ℕ} {bs : List ℕ} (hlt : ∀ c ∈ b :: bs, c < 256) (hb : 0 < b) : be (beNat (b :: bs)) = b :: bs := by
  have hsize : size (beNat (b :: bs)) = bs.length + 1 := by
    refine size_eq_of_le_of_lt ?_ (beNat_lt hlt)
    rw [beNat_cons]
    exact Nat.le_add_right_of_le (Nat.le_mul_of_pos_left _ hb)
  refine beNat_inj ?_ (be_lt _) hlt (beNat_be _)
  rw [length_be, hsize, length_cons, max_eq_right (by omega)]

/-- The digits of a number that does not fit in with its sign: two octets from FF 80 on, and any octets behind them. -/
def Refused (n : ℕ) : Prop := ∃ k, 0xff80 * 256 ^ k ≤ n ∧ n < 0x10000 * 256 ^ k

section

variable {b c k n : ℕ} {bs e : List ℕ} {v : ℤ}

theorem slapBin2hex_high (hb : 128 ≤ b) (hlt : ∀ x ∈ b :: c :: bs, x < 256) :
    slapBin2hex (b :: c :: bs) = if b = 0xff ∧ 128 ≤ c then none else some (printHex (b :: c :: bs)) := by
  have hbits := octet_bits b (hlt b (by simp))
  have hcbits := octet_bits c (hlt c (by simp))
  unfold slapBin2hex
  rw [if_pos (by simp), if_pos (by simpa [hbits.2.2] using hb)]
  simp [hcbits.2.2]

theorem slapBin2hex_low (hb : b < 128) (hpos : 0 < b) : slapBin2hex (b :: bs) = some (printHex (b :: bs)) := by
  have hbits := (octet_bits b (by omega)).2.2.mpr hb
  unfold slapBin2hex
  cases bs with
  | nil => simp
  | cons c bs => simp [hbits, hpos.ne']

theorem slapBin2hex_single (b : ℕ) : slapBin2hex [b] = some (printHex [b]) := by
  simp [slapBin2hex]

theorem slapBin2hex_be (n : ℕ) : (Refused n → slapBin2hex (be n) = none) ∧ (¬Refused n → slapBin2hex (be n) = some (serialText n)) := by
  obtain ⟨k, hk⟩ := Nat.exists_eq_add_of_lt (lt_max_of_lt_left (show 0 < 1 from one_pos) : 0 < max 1 (size n))
  rw [Nat.zero_add] at hk
  have hlt : n < 256 ^ (k + 1) := size_le_iff.mp (by omega)
  rw [← printHex_be n]
  rcases k with _ | k
  · have hsmall : n < 256 := by simpa using hlt
    have hnot : ¬Refused n := by
      rintro ⟨j, hj, -⟩
      have := Nat.one_le_pow j 256 (by omega)
      omega
    rw [be_of_lt hsmall]
    exact ⟨fun h => absurd h hnot, fun _ => slapBin2hex_single n⟩
  · have hle : 256 ^ (k + 1) ≤ n := lt_size_iff.mp (by omega)
    have hpos : 0 < 256 ^ k := Nat.pow_pos (by omega)
    have hbytes : be n = n / 256 ^ (k + 1) % 256 :: n / 256 ^ k % 256 :: beBytes k n := by rw [be, hk, beBytes, beBytes]
    have hall : ∀ x ∈ n / 256 ^ (k + 1) % 256 :: n / 256 ^ k % 256 :: beBytes k n, x < 256 := hbytes ▸ be_lt n
    have hdiv : n / 256 ^ (k + 1) = n / 256 ^ k / 256 := by rw [Nat.div_div_eq_div_mul, ← pow_succ]
    have hq : 256 ≤ n / 256 ^ k ∧ n / 256 ^ k < 0x10000 := by
      refine ⟨(Nat.le_div_iff_mul_le hpos).mpr (by rwa [Nat.mul_comm, ← pow_succ]), Nat.div_lt_of_lt_mul ?_⟩
      rwa [show (0x10000 : ℕ) = 256 ^ 2 by rfl, ← pow_add]
    -- the two octets in front decide
    have hrefused : Refused n ↔ 0xff80 ≤ n / 256 ^ k := by
      rw [Nat.le_div_iff_mul_le hpos]
      constructor
      · rintro ⟨j, hlo, hhi⟩
        have hjk : 256 ^ (j + 1) < 256 ^ (k + 2) := by
          refine Nat.lt_of_le_of_lt ?_ hlt
          rw [pow_succ]
          omega
        have hkj : 256 ^ (k + 1) < 256 ^ (j + 2) := by
          refine Nat.lt_of_le_of_lt hle ?_
          rwa [pow_add, Nat.mul_comm]
        have h1 := (Nat.pow_lt_pow_iff_right (by omega)).mp hjk
        have h2 := (Nat.pow_lt_pow_iff_right (by omega)).mp hkj
        obtain rfl : j = k := by omega
        exact hlo
      · intro hlo
        refine ⟨k, hlo, ?_⟩
        rw [show (0x10000 : ℕ) = 256 ^ 2 by rfl, ← pow_add, Nat.add_comm]
        exact hlt
    rw [hrefused, hbytes]
    by_cases hhigh : 128 ≤ n / 256 ^ (k + 1) % 256
    · rw [slapBin2hex_high hhigh hall]
      constructor
      · exact fun h => if_pos ⟨by omega, by omega⟩
      · exact fun h => if_neg (by omega)
    · refine ⟨fun h => absurd h (by omega), fun _ => slapBin2hex_low (by omega) (by omega)⟩

theorem slapBin2hex_nonneg (h : IsContent true e (.int n)) : slapBin2hex e = some (serialText n) := by
  obtain ⟨k, hk⟩ := Nat.exists_eq_add_of_lt (lt_max_of_lt_left (show 0 < 1 from one_pos) : 0 < max 1 (size n))
  rw [Nat.zero_add] at hk
  have hlt : n < 256 ^ (k + 1) := size_le_iff.mp (by omega)
  have hmin : 0 < k → 128 * 256 ^ (k - 1) ≤ n := fun hpos => by
    have hlow : 256 ^ (k - 1 + 1) ≤ n := lt_size_iff.mp (by omega)
    rw [pow_succ] at hlow
    omega
  have hsigned := @signed_content k n 0 true hlt hmin (.inl rfl)
  rw [if_pos rfl] at hsigned
  have hbe : (beBytes (k + 1) n).map (· ^^^ 0) = be n := by simp [be, hk]
  have htop : n / 256 ^ k < 256 := Nat.div_lt_of_lt_mul (by rwa [← pow_succ])
  have hcons : be n = n / 256 ^ k :: beBytes k n := by rw [be, hk, beBytes, Nat.mod_eq_of_lt htop]
  have hbit : 128 * 256 ^ k ≤ n ↔ 128 ≤ n / 256 ^ k := (Nat.le_div_iff_mul_le (Nat.pow_pos (by omega))).symm
  rw [content_unique h hsigned, signedBytes, hbe, ← printHex_be n]
  by_cases hhigh : 128 * 256 ^ k ≤ n
  · have hset : ¬(n / 256 ^ k) &&& 0x80 = 0 := by
      rw [(octet_bits _ htop).2.2]
      omega
    rw [if_pos hhigh, hcons]
    simp [slapBin2hex, hset]
  · rw [if_neg hhigh, List.nil_append, hcons]
    by_cases hzero : k = 0
    · subst hzero
      exact slapBin2hex_single _
    · refine slapBin2hex_low (by omega) (Nat.div_pos (lt_size_iff.mp (by omega)) (Nat.pow_pos (by omega)))

theorem slapBin2hex_neg (h : IsContent true e (.int v)) (hneg : v < 0) :
    ∃ m : ℕ, (m : ℤ) = v + 256 ^ e.length ∧ be m = e ∧ slapBin2hex e = some (serialText m) := by
  obtain ⟨hne, hlt, htwos, hmin⟩ := h
  obtain ⟨b, bs, rfl⟩ := exists_cons_of_ne_nil hne
  have hb : 128 ≤ b := by
    by_contra hlow
    rw [twos, if_pos (by omega)] at htwos
    omega
  have hbe := be_beNat hlt (by omega)
  refine ⟨beNat (b :: bs), ?_, hbe, ?_⟩
  · rw [← htwos, twos, if_neg (by omega), length_cons]
    ring
  · rw [← printHex_be, hbe]
    cases bs with
    | nil => exact slapBin2hex_single b
    | cons c bs =>
      obtain ⟨-, hone⟩ := hmin b c bs rfl
      rw [slapBin2hex_high hb hlt, if_neg hone]

end

/-! ## Decimal text -/

def decimalOf (n : ℕ) : DecimalText where
  neg := false
  digits := Nat.toDigits 10 n
  isDigits := Decimal.digits_toDigits n
  ne_nil := Nat.toDigits_ne_nil
  no_leading := by
    rcases Nat.eq_zero_or_pos n with rfl | hpos
    · exact .inl rfl
    · exact .inr (Decimal.toDigits_head hpos)

theorem value_decimalOf (n : ℕ) : (decimalOf n).value = n := by
  simp [decimalOf, DecimalText.value, Decimal.number_toDigits]

theorem exists_content (n : ℕ) : ∃ e, IsContent true e (.int n) := by
  obtain ⟨k, hk⟩ : ∃ k, FitsIn k (decimalOf n).value := ⟨_, fitsIn_text (decimalOf n) (Nat.le_succ _)⟩
  obtain ⟨e, -, he⟩ := decimalBranch_content (decimalOf n) (by simp [decimalOf]) hk
  rw [value_decimalOf] at he
  exact ⟨e, he⟩

theorem decimal_content (t : DecimalText) (hzero : ¬(t.neg = true ∧ t.digits = ['0'])) (hshort : t.text.length < 2 ^ 31) :
    ∃ e, lutilStr2binInt hexBranch t.text t.text.length = some e ∧ IsContent true e (.int t.value) := by
  have hpos : 0 < t.text.length := by
    have := length_text t
    have := List.length_pos_iff.mpr t.ne_nil
    omega
  obtain ⟨n, hn⟩ := Nat.exists_eq_add_of_lt hpos
  rw [Nat.zero_add] at hn
  exact lutilStr2binInt_content hexBranch t (Nat.le_refl _) hzero hshort (by rw [toInt_of_lt hshort, hn]; push_cast; ring)
    (fitsIn_text t (by omega))

theorem normalSn_long {n : ℕ} (hlong : 2 ^ 31 ≤ (Nat.toDigits 10 n).length) : normalSn (decimalOf n).text ≠ some (serialText n) := by
  intro hnormal
  obtain ⟨bytes, hbytes, htext⟩ := Option.bind_eq_some_iff.mp hnormal
  rw [lutilStr2binInt_text _ _ (Nat.le_refl _), Option.ite_none_left_eq_some] at hbytes
  obtain ⟨hint, hbytes⟩ := hbytes
  obtain ⟨hshort, hmany⟩ := int_len_short (length_text (decimalOf n)) hlong
  have hsame : (toInt (decimalOf n).text.length - if (decimalOf n).neg = true then 1 else 0).toNat =
      (toInt (decimalOf n).text.length).toNat := by simp [decimalOf]
  rw [hsame] at hbytes hshort
  generalize (toInt (decimalOf n).text.length).toNat = len at hbytes hshort
  by_cases hzero : len = 0
  · rw [hzero, take_zero, decimalBranch_nil] at hbytes
    cases hbytes
  · obtain ⟨k, rfl⟩ := Nat.exists_eq_succ_of_ne_zero hzero
    have hfits : FitsIn k ((decimalOf n).prefixText (k + 1) (Nat.succ_pos k) hmany).value := by
      refine fitsIn_text _ ?_
      rw [length_text]
      simp [DecimalText.prefixText, decimalOf]
    obtain ⟨bytes', hsome, hcontent⟩ := decimalBranch_content _ (by simp [DecimalText.prefixText, decimalOf]) hfits
    obtain ⟨hne, -⟩ := value_prefixText (decimalOf n) (Nat.succ_pos k) hmany hshort
    rw [show bytes' = bytes from Option.some.inj (hsome.symm.trans hbytes)] at hcontent
    have hvalue : ((decimalOf n).prefixText (k + 1) (Nat.succ_pos k) hmany).value =
        (Decimal.number ((decimalOf n).digits.take (k + 1)) : ℤ) := by simp [DecimalText.value, DecimalText.prefixText, decimalOf]
    rw [hvalue] at hcontent hne
    rw [slapBin2hex_nonneg hcontent] at htext
    rw [value_decimalOf, serialText_inj (Option.some.inj htext)] at hne
    exact hne rfl

/-- All forms of a number have one normal form, and that is its own normal form. -/
def CanonicalSn (n : ℕ) : Prop :=
  ∃ text, normalSn (decimalOf n).text = some text ∧
    (∀ cs, Hex.IsText cs → Hex.number cs = n →
      (∀ x, x = 'x' ∨ x = 'X' → normalSn ('0' :: x :: cs) = some text) ∧ normalSn (quote cs) = some text) ∧
    (∀ e, IsContent true e (.int n) → slapBin2hex e = some text) ∧ normalSn text = some text

theorem length_hex_le {cs : List Char} (h : Hex.IsText cs) : cs.length ≤ (Nat.toDigits 10 (Hex.number cs)).length := by
  have hlt := Decimal.number_lt (Decimal.digits_toDigits (Hex.number cs))
  rw [Decimal.number_toDigits] at hlt
  have hpos := List.length_pos_iff.mpr h.ne_nil
  have hdec : 0 < (Nat.toDigits 10 (Hex.number cs)).length := List.length_pos_iff.mpr Nat.toDigits_ne_nil
  rcases Hex.le_number h with hzero | hle
  · rw [hzero] at hdec ⊢
    exact hdec
  · have hpow : 10 ^ (cs.length - 1) ≤ 16 ^ (cs.length - 1) := Nat.pow_le_pow_left (by omega) _
    have := (Nat.pow_lt_pow_iff_right (by omega)).mp (Nat.lt_of_le_of_lt (hpow.trans hle) hlt)
    omega

theorem normalSn_quote {cs : List Char} (h : Hex.IsText cs) (hlen : cs.length < 2 ^ 31) :
    normalSn (quote cs) = slapBin2hex (be (Hex.number cs)) := by
  unfold normalSn quote
  rw [lutilStr2binInt_quoted h hlen (by simp)]
  rfl

theorem normalSn_prefixed {cs : List Char} {x : Char} (h : Hex.IsText cs) (hx : x = 'x' ∨ x = 'X') (hlen : cs.length < 2 ^ 31) :
    normalSn ('0' :: x :: cs) = slapBin2hex (be (Hex.number cs)) := by
  unfold normalSn
  rw [lutilStr2binInt_prefixed h hx hlen (by simp)]
  rfl

theorem canonicalSn_iff (n : ℕ) : CanonicalSn n ↔ ¬Refused n ∧ (Nat.toDigits 10 n).length < 2 ^ 31 := by
  have hdigits := Hex.isText_digits n
  have hnumber := Hex.number_digits n
  constructor
  · rintro ⟨text, hdecimal, -, hder, hself⟩
    obtain ⟨e, he⟩ := exists_content n
    obtain rfl : serialText n = text := Option.some.inj ((slapBin2hex_nonneg he).symm.trans (hder e he))
    have hlen : (Nat.toDigits 10 n).length < 2 ^ 31 := by
      by_contra hlong
      exact normalSn_long (Nat.le_of_not_lt hlong) hdecimal
    refine ⟨fun hrefused => ?_, hlen⟩
    have hhex := length_hex_le hdigits
    rw [hnumber] at hhex
    rw [serialText, normalSn_quote hdigits (by omega), hnumber, (slapBin2hex_be n).1 hrefused] at hself
    cases hself
  · rintro ⟨hrefused, hlen⟩
    have hbe := (slapBin2hex_be n).2 hrefused
    have hhex : ∀ cs, Hex.IsText cs → Hex.number cs = n → cs.length < 2 ^ 31 := fun cs hcs hnum => by
      have := length_hex_le hcs
      rw [hnum] at this
      omega
    refine ⟨serialText n, ?_, fun cs hcs hnum => ⟨fun x hx => ?_, ?_⟩, fun e he => slapBin2hex_nonneg he, ?_⟩
    · obtain ⟨e, hsome, hcontent⟩ := decimal_content (decimalOf n) (by simp [decimalOf]) hlen
      rw [value_decimalOf] at hcontent
      rw [normalSn, hsome, Option.bind_some, slapBin2hex_nonneg hcontent]
    · rw [normalSn_prefixed hcs hx (hhex cs hcs hnum), hnum, hbe]
    · rw [normalSn_quote hcs (hhex cs hcs hnum), hnum, hbe]
    · rw [serialText, normalSn_quote hdigits (hhex _ hdigits hnumber), hnumber, hbe]
      rfl

theorem slapBin2hex_content {e : List ℕ} {v : ℤ} (h : IsContent true e (.int v)) :
    ∃ m : ℕ, (m : ℤ) = (if v < 0 then v + 256 ^ e.length else v) ∧ (v < 0 → be m = e) ∧ slapBin2hex e = some (serialText m) := by
  by_cases hneg : v < 0
  · obtain ⟨m, hm, hbe, htext⟩ := slapBin2hex_neg h hneg
    exact ⟨m, by rw [if_pos hneg, hm], fun _ => hbe, htext⟩
  · obtain ⟨n, rfl⟩ := Int.eq_ofNat_of_zero_le (Int.not_lt.mp hneg)
    exact ⟨n, by rw [if_neg hneg], fun h => absurd h hneg, slapBin2hex_nonneg h⟩

theorem distinct_iff {e f : List ℕ} {v w : ℤ} (he : IsContent true e (.int v)) (hf : IsContent true f (.int w)) (hne : v ≠ w) :
    (∃ s t, slapBin2hex e = some s ∧ slapBin2hex f = some t ∧ s ≠ t) ↔
      ¬(v < 0 ∧ w = v + 256 ^ e.length) ∧ ¬(w < 0 ∧ v = w + 256 ^ f.length) := by
  obtain ⟨m, hm, hbe, htext⟩ := slapBin2hex_content he
  obtain ⟨n, hn, hbf, htext'⟩ := slapBin2hex_content hf
  have hiff : (∃ s t, slapBin2hex e = some s ∧ slapBin2hex f = some t ∧ s ≠ t) ↔ m ≠ n := by
    rw [htext, htext']
    constructor
    · rintro ⟨s, t, hs, ht, hst⟩ rfl
      exact hst ((Option.some.inj hs).symm.trans (Option.some.inj ht))
    · exact fun h => ⟨_, _, rfl, rfl, fun heq => h (serialText_inj heq)⟩
  rw [hiff]
  by_cases hv : v < 0
  · by_cases hw : w < 0
    · have hmn : m ≠ n := by
        rintro rfl
        rw [(hbe hv).symm.trans (hbf hw)] at he
        exact hne (he.2.2.1.symm.trans hf.2.2.1)
      rw [if_pos hv] at hm
      rw [if_pos hw] at hn
      exact ⟨fun _ => ⟨by omega, by omega⟩, fun _ => hmn⟩
    · rw [if_pos hv] at hm
      rw [if_neg hw] at hn
      omega
  · by_cases hw : w < 0
    · rw [if_neg hv] at hm
      rw [if_pos hw] at hn
      omega
    · rw [if_neg hv] at hm
      rw [if_neg hw] at hn
      omega

/-- The forms of a number that is not negative have one normal form if and only if its octets without one for the sign do not begin
with FF 80 or more, and its decimal digits are no more than an `int` counts. Two integers have two texts if and only if none is
negative and has the octets of the other without a sign. Decimal text of any integer but `-0` gives its DER contents. -/
theorem serialNumber_canonical (n : ℕ) :
    (CanonicalSn n ↔ ¬Refused n ∧ (Nat.toDigits 10 n).length < 2 ^ 31) ∧
    (∀ (e f : List ℕ) (v w : ℤ), IsContent true e (.int v) → IsContent true f (.int w) → v ≠ w →
      ((∃ s t, slapBin2hex e = some s ∧ slapBin2hex f = some t ∧ s ≠ t) ↔
        ¬(v < 0 ∧ w = v + 256 ^ e.length) ∧ ¬(w < 0 ∧ v = w + 256 ^ f.length))) ∧
    (∀ t : DecimalText, ¬(t.neg = true ∧ t.digits = ['0']) → t.text.length < 2 ^ 31 →
      ∃ e, lutilStr2binInt hexBranch t.text t.text.length = some e ∧ IsContent true e (.int t.value)) :=
  ⟨canonicalSn_iff n, fun _ _ _ _ he hf hne => distinct_iff he hf hne, decimal_content⟩

/-- 65535 has a text that is refused, and -1 the one of 255. -/
theorem serialNumber_not_canonical :
    slapBin2hex [0, 0xff, 0xff] = some "'FFFF'H".toList ∧ normalSn "'FFFF'H".toList = none ∧ ¬CanonicalSn 65535 ∧
      slapBin2hex [0xff] = slapBin2hex [0, 0xff] ∧ twos [0xff] = -1 ∧ twos [0, 0xff] = 255 := by
  have hrefused : Refused 65535 := ⟨0, by norm_num, by norm_num⟩
  have hnumber : Hex.number ['F', 'F', 'F', 'F'] = 65535 := by decide
  have htext : Hex.IsText ['F', 'F', 'F', 'F'] := ⟨List.all_eq_true.mp (by decide), by simp, .inr (by simp)⟩
  refine ⟨by decide, ?_, fun h => ((canonicalSn_iff 65535).mp h).1 hrefused, by decide, by decide, by decide⟩
  show normalSn (quote ['F', 'F', 'F', 'F']) = none
  rw [normalSn_quote htext (by decide), hnumber]
  exact (slapBin2hex_be _).1 hrefused

end Slapd
end ReOpenLDAP
