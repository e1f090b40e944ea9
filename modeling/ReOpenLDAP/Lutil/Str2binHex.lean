import ReOpenLDAP.Lib.Hex
import ReOpenLDAP.Lutil.Str2binExact

/-!
# Lutil.Str2binHex

`lutil_str2bin` of hex text, as `0x1234` or as `'1234'H`.

* `hexBranch`   — a longword at a time, the odd digits first.
-/

namespace ReOpenLDAP
namespace Lutil

open Ber Bytes Hex List

def HEXMAX : ℕ := 16

/-- `strtoul(tbuf, &end, 16)` of a chunk, which has neither a sign nor a blank. -/
def strtoul16 (s : List Char) : ℕ := number (s.takeWhile isHex)

/-- `while (len)`: the bytes of the next chunk, and from then on `HEXMAX` digits at a time. -/
def hexLoop (chunk : ℕ) (pin : List Char) : List ℕ :=
  if _h : pin = [] ∨ chunk = 0 then []
  else beBytes ((chunk + 1) / 2) (strtoul16 (pin.take chunk)) ++ hexLoop HEXMAX (pin.drop chunk)
termination_by pin.length
decreasing_by
  have := List.length_pos_iff.mpr (not_or.mp _h).1
  have := (not_or.mp _h).2
  simp only [length_drop]
  omega

/-- What `lutil_str2bin` does with hex text and a buffer of `bufsiz` bytes. -/
def hexBranch (s : List Char) (bufsiz : ℕ) : Option (List ℕ) :=
  let quoted : Bool := s[0]? == some '\''
  let len := toInt (s.length - if quoted then 3 else 2)
  if len < 0 then none
  else
    let pin := (s.drop (if quoted then 1 else 2)).take len.toNat
    let bytes := hexLoop (if pin.length % HEXMAX = 0 then HEXMAX else pin.length % HEXMAX) pin
    if bufsiz < bytes.length then none else some bytes

variable {cs : List Char}

theorem strtoul16_hex (h : ∀ c ∈ cs, isHex c = true) : strtoul16 cs = number cs := by
  rw [strtoul16, List.takeWhile_eq_self_iff.mpr h]

theorem sixteen_pow (n : ℕ) : 16 ^ (2 * n) = 256 ^ n := pow_mul 16 2 n

theorem beBytes_parts {m n hi lo : ℕ} (hlow : lo < 256 ^ n) : beBytes (m + n) (hi * 256 ^ n + lo) = beBytes m hi ++ beBytes n lo := by
  have hdiv : (hi * 256 ^ n + lo) / 256 ^ n = hi := by
    rw [Nat.mul_comm, Nat.mul_add_div (Nat.pow_pos (by omega)), Nat.div_eq_of_lt hlow, Nat.add_zero]
  rw [beBytes_add, hdiv, ← beBytes_mod n (_ + _), Nat.mul_add_mod', Nat.mod_eq_of_lt hlow]

theorem hexLoop_chunk {c q : ℕ} (h : ∀ d ∈ cs, isHex d = true) (hc : 0 < c) (hlen : cs.length = c + 16 * q)
    (hrest : hexLoop HEXMAX (cs.drop c) = beBytes (8 * q) (number (cs.drop c))) :
    hexLoop c cs = beBytes ((cs.length + 1) / 2) (number cs) := by
  have hne : cs ≠ [] := by
    rintro rfl
    rw [length_nil] at hlen
    omega
  have hfirst : ∀ d ∈ cs.take c, isHex d = true := fun d hd => h d (mem_of_mem_take hd)
  have hdrop : (cs.drop c).length = 2 * (8 * q) := by
    rw [length_drop]
    omega
  have hlow := number_lt fun d hd => h d (mem_of_mem_drop (i := c) hd)
  have hnum : number cs = number (cs.take c) * 256 ^ (8 * q) + number (cs.drop c) := by
    conv_lhs => rw [← take_append_drop c cs, number_append, hdrop, sixteen_pow]
  rw [hdrop, sixteen_pow] at hlow
  rw [hexLoop, dif_neg (by simp [hne, hc.ne']), strtoul16_hex hfirst, hrest, hnum, ← beBytes_parts hlow]
  congr 1
  omega

theorem hexLoop_rest {q : ℕ} (h : ∀ c ∈ cs, isHex c = true) (hlen : cs.length = 16 * q) :
    hexLoop HEXMAX cs = beBytes (8 * q) (number cs) := by
  induction q generalizing cs with
  | zero =>
    obtain rfl : cs = [] := eq_nil_of_length_eq_zero (by omega)
    rw [hexLoop, dif_pos (.inl rfl)]
    rfl
  | succ q ih =>
    have hrest := @ih (cs.drop HEXMAX) (fun c hc => h c (mem_of_mem_drop hc)) (by
      rw [length_drop, HEXMAX]
      omega)
    rw [hexLoop_chunk h (by decide) (by rw [HEXMAX]; omega) hrest]
    congr 1
    omega

theorem hexLoop_eq (h : ∀ c ∈ cs, isHex c = true) (hne : cs ≠ []) :
    hexLoop (if cs.length % HEXMAX = 0 then HEXMAX else cs.length % HEXMAX) cs = beBytes ((cs.length + 1) / 2) (number cs) := by
  have hpos := List.length_pos_iff.mpr hne
  obtain ⟨q, hq, hc⟩ : ∃ q, cs.length = (if cs.length % HEXMAX = 0 then HEXMAX else cs.length % HEXMAX) + 16 * q ∧
      0 < if cs.length % HEXMAX = 0 then HEXMAX else cs.length % HEXMAX := by
    unfold HEXMAX
    split
    · exact ⟨cs.length / 16 - 1, by omega, by omega⟩
    · exact ⟨cs.length / 16, by omega, by omega⟩
  refine hexLoop_chunk h hc hq (hexLoop_rest (fun c hc => h c (mem_of_mem_drop hc)) ?_)
  rw [length_drop]
  omega

theorem length_text_eq (h : IsText cs) : (cs.length + 1) / 2 = max 1 (size (number cs)) := by
  have hpos := List.length_pos_iff.mpr h.ne_nil
  have hlt : number cs < 256 ^ ((cs.length + 1) / 2) := by
    refine (number_lt h.isHex).trans_le ?_
    rw [← sixteen_pow]
    exact Nat.pow_le_pow_right (by omega) (by omega)
  have hle := size_le_iff.mpr hlt
  rcases le_number h with rfl | hlow
  · rfl
  · by_cases hone : cs.length ≤ 2
    · have hsize := size_pos (Nat.lt_of_lt_of_le (Nat.pow_pos (by omega)) hlow)
      omega
    · have hgt : (cs.length + 1) / 2 - 1 < size (number cs) := by
        refine lt_size_iff.mpr (Nat.le_trans ?_ hlow)
        rw [← sixteen_pow]
        exact Nat.pow_le_pow_right (by omega) (by omega)
      omega

theorem length_be_number (h : IsText cs) : (be (number cs)).length ≤ cs.length := by
  have hpos := List.length_pos_iff.mpr h.ne_nil
  rw [length_be, ← length_text_eq h]
  omega

theorem hexBranch_eq {s cs after : List Char} {bufsiz : ℕ} (h : IsText cs) (hlen : cs.length < 2 ^ 31) (hroom : cs.length ≤ bufsiz)
    (hdrop : s.drop (if s[0]? == some '\'' then 1 else 2) = cs ++ after)
    (hcount : s.length - (if s[0]? == some '\'' then 3 else 2) = cs.length) : hexBranch s bufsiz = some (be (number cs)) := by
  have hbytes := length_be_number h
  unfold hexBranch
  simp only [hdrop, hcount, toInt_of_lt hlen, Int.toNat_natCast, take_left]
  rw [if_neg (by omega), hexLoop_eq h.isHex h.ne_nil, length_text_eq h]
  exact if_neg (by unfold be at hbytes; omega)

theorem lutilStr2binInt_prefixed {x : Char} {bufsiz : ℕ} (h : IsText cs) (hx : x = 'x' ∨ x = 'X')
    (hlen : cs.length < 2 ^ 31) (hroom : cs.length + 2 ≤ bufsiz) :
    lutilStr2binInt hexBranch ('0' :: x :: cs) bufsiz = some (be (number cs)) := by
  have hpos := List.length_pos_iff.mpr h.ne_nil
  have hform : hexText ('0' :: x :: cs) = true := by
    rcases hx with rfl | rfl <;> simp [hexText, hpos]
  unfold lutilStr2binInt
  rw [if_neg (by simp only [length_cons]; omega), if_pos hform]
  exact @hexBranch_eq _ cs [] _ h hlen (by omega) (by simp) (by simp)

theorem lutilStr2binInt_quoted {bufsiz : ℕ} (h : IsText cs) (hlen : cs.length < 2 ^ 31) (hroom : cs.length + 3 ≤ bufsiz) :
    lutilStr2binInt hexBranch ('\'' :: cs ++ ['\'', 'H']) bufsiz = some (be (number cs)) := by
  have hpos := List.length_pos_iff.mpr h.ne_nil
  have hform : hexText ('\'' :: cs ++ ['\'', 'H']) = true := by
    have hquote : ('\'' :: cs ++ ['\'', 'H'])[cs.length + 1]? = some '\'' := by
      rw [cons_append, List.getElem?_cons_succ, List.getElem?_append_right (Nat.le_refl _)]
      simp
    have hh : ('\'' :: cs ++ ['\'', 'H'])[cs.length + 2]? = some 'H' := by
      rw [cons_append, List.getElem?_cons_succ, List.getElem?_append_right (by omega)]
      simp
    have hall : ('\'' :: cs ++ ['\'', 'H']).length = cs.length + 3 := by simp
    unfold hexText
    rw [hall, show cs.length + 3 - 2 = cs.length + 1 by omega, show cs.length + 3 - 1 = cs.length + 2 by omega, hquote, hh]
    simp
    omega
  unfold lutilStr2binInt
  rw [if_neg (by simp only [length_cons, length_append, length_nil]; omega), if_pos hform]
  exact @hexBranch_eq _ _ ['\'', 'H'] _ h hlen (by omega) (by simp) (by simp)

end Lutil
end ReOpenLDAP
