import ReOpenLDAP.Lib.Ascii

/-!
# Libreldap.Base64

Base 64, as `ldif_sput_wrap` writes it and `ldap_int_decode_b64_inplace` reads it.
-/

namespace ReOpenLDAP
namespace Libreldap

open Ascii

def nib2b64 : List Octet := text "ABCDEFGHIJKLMNOPQRSTUVWXYZabcdefghijklmnopqrstuvwxyz0123456789+/"

def PAD : Octet := ascii '='

/-- `nib2b64[(bits & 0xfc0000L) >> 18]` -/
def digit (bits : ℕ) : Octet := nib2b64.getD (bits / 2 ^ 18 % 64) 0

/-- The digits of three octets: `bits <<= 6` after each one. -/
def quad (a b c : Octet) : List Octet :=
  let bits := a.val * 2 ^ 16 + b.val * 2 ^ 8 + c.val
  [digit bits, digit (bits * 2 ^ 6), digit (bits * 2 ^ 12), digit (bits * 2 ^ 18)]

def encodeB64 : List Octet → List Octet
  | [] => []
  | [a] => (quad a 0 0).take 2 ++ [PAD, PAD]
  | [a, b] => (quad a b 0).take 3 ++ [PAD]
  | a :: b :: c :: rest => quad a b c ++ encodeB64 rest

/-- `b642nib`; 0xff is no digit. -/
def b642nib (c : Octet) : ℕ :=
  if isUpper c then c.val - 65
  else if isLower c then c.val - 97 + 0x1a
  else if isDigit c then c.val - 48 + 0x34
  else if c = ascii '+' then 0x3e
  else if c = ascii '/' then 0x3f
  else 0xff

/-- The table as a `char`: 0xff is -1. -/
def nib (c : Octet) : ℕ := if b642nib c = 0xff then 2 ^ 32 - 1 else b642nib c

def b64Char (c : Octet) : Bool := c = PAD || b642nib c ≤ 0x3f

def byte (n : ℕ) : Octet := Fin.ofNat 256 n

/-- `ldap_int_decode_b64_inplace`: the value, and whether it returns `LDAP_SUCCESS`. The code looks at four characters in each round;
behind the end there is a `'\0'`. -/
def decodeB64 : List Octet → List Octet × Bool
  | [] => ([], true)
  | p0 :: p1 :: p2 :: p3 :: p =>
    if ¬ (b64Char p0 ∧ b64Char p1 ∧ b64Char p2 ∧ b64Char p3) then ([], false)
    else
      let byte0 := byte (nib p0 <<< 2 ||| nib p1 >>> 4)
      if p2 = PAD then ([byte0], true)
      else
        let byte1 := byte ((nib p1 &&& 0x0f) <<< 4 ||| nib p2 >>> 2)
        if p3 = PAD then ([byte0, byte1], true)
        else
          let byte2 := byte ((nib p2 &&& 0x03) <<< 6 ||| nib p3)
          let (value, ok) := decodeB64 p
          (byte0 :: byte1 :: byte2 :: value, ok)
  | _ => ([], false)

def sextet (n : ℕ) : Octet := nib2b64.getD n 0

set_option maxRecDepth 8000 in
theorem sextet_table : ∀ i : Fin 64, (b64Char (sextet i.val) = true ∧ sextet i.val ≠ PAD ∧ nib (sextet i.val) = i.val) ∧
    isGraph (sextet i.val) = true := by
  decide

theorem sextet_spec {n : ℕ} (hn : n < 64) : b64Char (sextet n) = true ∧ sextet n ≠ PAD ∧ nib (sextet n) = n :=
  (sextet_table ⟨n, hn⟩).1

theorem quad_eq (a b c : Octet) : quad a b c =
    [sextet (a.val / 4), sextet (a.val % 4 * 16 + b.val / 16), sextet (b.val % 16 * 4 + c.val / 64), sextet (c.val % 64)] := by
  have ha := a.isLt
  have hb := b.isLt
  have hc := c.isLt
  have hdigit : ∀ {n m : ℕ}, n / 2 ^ 18 % 64 = m → digit n = sextet m := fun h => congrArg sextet h
  rw [quad, hdigit (m := a.val / 4), hdigit (m := a.val % 4 * 16 + b.val / 16), hdigit (m := b.val % 16 * 4 + c.val / 64),
    hdigit (m := c.val % 64)]
  all_goals omega

theorem byte_or {x y i : ℕ} {a : Octet} (hy : y < 2 ^ i) (h : (x * 2 ^ i + y) % 256 = a.val) : byte (x <<< i ||| y) = a := by
  rw [← Nat.shiftLeft_add_eq_or_of_lt hy, Nat.shiftLeft_eq]
  exact Fin.ext h

section

variable (a b c : Octet)

theorem byte_first : byte ((a.val / 4) <<< 2 ||| (a.val % 4 * 16 + b.val / 16) >>> 4) = a := by
  have ha := a.isLt
  have hb := b.isLt
  rw [Nat.shiftRight_eq_div_pow]
  exact byte_or (by omega) (by omega)

theorem byte_second : byte (((a.val % 4 * 16 + b.val / 16) &&& 0x0f) <<< 4 ||| (b.val % 16 * 4 + c.val / 64) >>> 2) = b := by
  have hb := b.isLt
  have hc := c.isLt
  have hmask : (a.val % 4 * 16 + b.val / 16) &&& 0x0f = b.val / 16 := by
    rw [Nat.and_two_pow_sub_one_eq_mod _ 4]
    omega
  rw [hmask, Nat.shiftRight_eq_div_pow]
  exact byte_or (by omega) (by omega)

theorem byte_third : byte (((b.val % 16 * 4 + c.val / 64) &&& 0x03) <<< 6 ||| c.val % 64) = c := by
  have hb := b.isLt
  have hc := c.isLt
  have hmask : (b.val % 16 * 4 + c.val / 64) &&& 0x03 = c.val / 64 := by
    rw [Nat.and_two_pow_sub_one_eq_mod _ 2]
    omega
  rw [hmask]
  exact byte_or (by omega) (by omega)

theorem sextets_spec : (b64Char (sextet (a.val / 4)) = true ∧ nib (sextet (a.val / 4)) = a.val / 4) ∧
    (b64Char (sextet (a.val % 4 * 16 + b.val / 16)) = true ∧
      nib (sextet (a.val % 4 * 16 + b.val / 16)) = a.val % 4 * 16 + b.val / 16) ∧
    (b64Char (sextet (b.val % 16 * 4 + c.val / 64)) = true ∧ sextet (b.val % 16 * 4 + c.val / 64) ≠ PAD ∧
      nib (sextet (b.val % 16 * 4 + c.val / 64)) = b.val % 16 * 4 + c.val / 64) ∧
    b64Char (sextet (c.val % 64)) = true ∧ sextet (c.val % 64) ≠ PAD ∧ nib (sextet (c.val % 64)) = c.val % 64 := by
  have ha := a.isLt
  have hb := b.isLt
  have hc := c.isLt
  have h0 := sextet_spec (show a.val / 4 < 64 by omega)
  have h1 := sextet_spec (show a.val % 4 * 16 + b.val / 16 < 64 by omega)
  exact ⟨⟨h0.1, h0.2.2⟩, ⟨h1.1, h1.2.2⟩, sextet_spec (by omega), sextet_spec (by omega)⟩

theorem decode_quad (p : List Octet) : decodeB64 (quad a b c ++ p) = (a :: b :: c :: (decodeB64 p).1, (decodeB64 p).2) := by
  obtain ⟨⟨h0, n0⟩, ⟨h1, n1⟩, ⟨h2, p2, n2⟩, h3, p3, n3⟩ := sextets_spec a b c
  rw [quad_eq]
  simp only [List.cons_append, List.nil_append, decodeB64, h0, h1, h2, h3, n0, n1, n2, n3, if_neg p2, if_neg p3, and_self, not_true_eq_false,
    if_false, byte_first, byte_second, byte_third]

theorem decode_two : decodeB64 ((quad a b 0).take 3 ++ [PAD]) = ([a, b], true) := by
  obtain ⟨⟨h0, n0⟩, ⟨h1, n1⟩, ⟨h2, p2, n2⟩, -⟩ := sextets_spec a b 0
  have hpad : b64Char PAD = true := by decide
  rw [quad_eq]
  simp only [List.take, List.cons_append, List.nil_append, decodeB64, h0, h1, h2, hpad, n0, n1, n2, if_neg p2, and_self,
    not_true_eq_false, if_false, if_true, byte_first, byte_second]

theorem decode_one : decodeB64 ((quad a 0 0).take 2 ++ [PAD, PAD]) = ([a], true) := by
  obtain ⟨⟨h0, n0⟩, ⟨h1, n1⟩, -⟩ := sextets_spec a 0 0
  have hpad : b64Char PAD = true := by decide
  rw [quad_eq]
  simp only [List.take, List.cons_append, List.nil_append, decodeB64, h0, h1, hpad, n0, n1, and_self,
    not_true_eq_false, if_false, if_true, byte_first]

end

theorem decode_encode (val : List Octet) : decodeB64 (encodeB64 val) = (val, true) := by
  induction val using encodeB64.induct with
  | case1 => rfl
  | case2 a => exact decode_one a
  | case3 a b => exact decode_two a b
  | case4 a b c rest ih => rw [encodeB64, decode_quad, ih]

end Libreldap
end ReOpenLDAP
