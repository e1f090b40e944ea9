import ReOpenLDAP.Lib.Ber
import ReOpenLDAP.Lib.Bytes

/-!
# Lib.BerOctets

BER with definite lengths: when octets encode a row of elements.
-/

namespace ReOpenLDAP
namespace Ber

open Bytes List

def beNat (bs : List ℕ) : ℕ := bs.foldl (fun a b => a * 256 + b) 0

def be (v : ℕ) : List ℕ := beBytes (max 1 (size v)) v

theorem beNat_append_singleton (bs : List ℕ) (b : ℕ) : beNat (bs ++ [b]) = beNat bs * 256 + b := by
  simp [beNat, foldl_append]

@[simp] theorem beNat_singleton (b : ℕ) : beNat [b] = b := by simp [beNat]

theorem beNat_cons (b : ℕ) (bs : List ℕ) : beNat (b :: bs) = b * 256 ^ bs.length + beNat bs := by
  induction bs using List.reverseRecOn with
  | nil => simp [beNat]
  | append_singleton bs c ih =>
    rw [← cons_append, beNat_append_singleton, ih, beNat_append_singleton, length_append, length_singleton, pow_succ]
    ring

theorem beBytes_succ (n v : ℕ) : beBytes (n + 1) v = beBytes n (v / 256) ++ [v % 256] := by
  rw [beBytes_add, pow_one]
  simp [beBytes]

theorem beNat_beBytes {n v : ℕ} (h : v < 256 ^ n) : beNat (beBytes n v) = v := by
  induction n generalizing v with
  | zero =>
    obtain rfl : v = 0 := by simpa using h
    rfl
  | succ n ih =>
    rw [pow_succ] at h
    rw [beBytes_succ, beNat_append_singleton, ih (by omega)]
    omega

theorem beNat_lt {bs : List ℕ} (h : ∀ b ∈ bs, b < 256) : beNat bs < 256 ^ bs.length := by
  induction bs using List.reverseRecOn with
  | nil => simp [beNat]
  | append_singleton bs c ih =>
    have hbs := ih fun b hb => h b (by simp [hb])
    have hc := h c (by simp)
    rw [beNat_append_singleton, length_append, length_singleton, pow_succ]
    omega

@[simp] theorem beNat_be (v : ℕ) : beNat (be v) = v :=
  beNat_beBytes (lt_of_lt_of_le (size_le_iff.mp (le_refl _)) (Nat.pow_le_pow_right (by omega) (le_max_right 1 _)))

theorem be_lt (v : ℕ) : ∀ b ∈ be v, b < 256 := beBytes_lt _ _

theorem length_be (v : ℕ) : (be v).length = max 1 (size v) := length_beBytes _ _

theorem be_of_lt {v : ℕ} (h : v < 256) : be v = [v] := by
  have hsize : size v ≤ 1 := size_le_iff.mpr (by omega)
  rw [be, max_eq_left hsize]
  simp [beBytes, Nat.mod_eq_of_lt h]

theorem be_of_le {v : ℕ} (h : 256 ≤ v) : be v = be (v / 256) ++ [v % 256] := by
  have hsize : 1 ≤ size (v / 256) := size_pos (by omega)
  rw [be, be, size_div (by omega), max_eq_right hsize, max_eq_right (by omega), beBytes_succ]

theorem be_ne_nil (v : ℕ) : be v ≠ [] := by
  intro h
  have := length_be v
  rw [h, length_nil] at this
  omega

theorem length_be_le {n v : ℕ} (hn : 0 < n) (h : v < 256 ^ n) : (be v).length ≤ n := by
  rw [length_be]
  exact max_le hn (size_le_iff.mpr h)

theorem head_be {v : ℕ} (h : 0 < v) : ∀ b ∈ (be v).head?, b ≠ 0 := by
  induction v using Nat.strong_induction_on with
  | _ v ih =>
    by_cases hv : v < 256
    · rw [be_of_lt hv]
      simp
      omega
    · rw [be_of_le (by omega)]
      intro b hb
      rw [List.head?_append_of_ne_nil _ (be_ne_nil _)] at hb
      exact ih (v / 256) (by omega) (by omega) b hb

/-- The octets behind the first of a tag in the long form: groups of seven bits, the first not 0, for a number from 31 on. -/
def IsTagNumber (bs : List ℕ) : Prop :=
  ∃ more last, bs = more ++ [last] ∧ last < 128 ∧ (∀ b ∈ more, 128 ≤ b ∧ b < 256) ∧ more.head? ≠ some 128 ∧ (more = [] → 31 ≤ last)

def IsIdentifier (constructed : Bool) : List ℕ → Prop
  | [] => False
  | b :: bs => b < 256 ∧ (b / 32 % 2 = 1 ↔ constructed = true) ∧ (b % 32 ≠ 31 ∧ bs = [] ∨ b % 32 = 31 ∧ IsTagNumber bs)

def IsTag (constructed : Bool) (tag : ℕ) : Prop := IsIdentifier constructed (be tag)

def IsLength (der : Bool) (n : ℕ) : List ℕ → Prop
  | [] => False
  | b :: bs =>
    b < 128 ∧ n = b ∧ bs = [] ∨
      b = 128 + bs.length ∧ bs ≠ [] ∧ bs.length < 127 ∧ (∀ b ∈ bs, b < 256) ∧ beNat bs = n ∧
        (der = true → 128 ≤ n ∧ bs.head? ≠ some 0)

inductive Prim where
  | bool (b : Bool)
  | int (n : ℤ)
  | null
  | octets (s : List ℕ)
deriving DecidableEq

def twos : List ℕ → ℤ
  | [] => 0
  | b :: bs => beNat (b :: bs) - if b < 128 then 0 else 256 ^ (bs.length + 1)

def IsContent (der : Bool) (bs : List ℕ) : Prim → Prop
  | .bool b => ∃ x, bs = [x] ∧ x < 256 ∧ (x ≠ 0 ↔ b = true) ∧ (der = true → x = 0 ∨ x = 255)
  | .int n =>
    bs ≠ [] ∧ (∀ b ∈ bs, b < 256) ∧ twos bs = n ∧
      ∀ b c more, bs = b :: c :: more → ¬(b = 0 ∧ c < 128) ∧ ¬(b = 255 ∧ 128 ≤ c)
  | .null => bs = []
  | .octets s => bs = s

def Encodes (der : Bool) : Elements Prim → List ℕ → Prop
  | .nil, bs => bs = []
  | .prim tag v rest, bs =>
    ∃ len content more, bs = be tag ++ len ++ content ++ more ∧ IsTag false tag ∧ IsLength der content.length len ∧
      IsContent der content v ∧ Encodes der rest more
  | .cons tag c rest, bs =>
    ∃ len content more, bs = be tag ++ len ++ content ++ more ∧ IsTag true tag ∧ IsLength der content.length len ∧
      Encodes der c content ∧ Encodes der rest more

end Ber
end ReOpenLDAP
