import ReOpenLDAP.Lib.Decimal
import ReOpenLDAP.Sync.Csn

/-!
# Slapd.IntegerSyntax

The syntax Integer and its matching rules.

* `integerValidate` — an optional minus sign and digits without a zero in front.
-/

namespace ReOpenLDAP
namespace Slapd

open Cmp Decimal

def integerValidate : List Char → Bool
  | [] => false
  | '-' :: val => if val = [] then false else if val.head? = some '0' then false else val.all Char.isDigit
  | '0' :: val => decide (val = [])
  | val => val.all Char.isDigit

/-- `ext` is `SLAP_MR_EXT`, and `ordering` that the rule is of usage `SLAP_MR_ORDERING`. Of `memcmp` only the sign is used. -/
def integerMatch (ext ordering : Bool) (value asserted : List Char) : ℤ :=
  let vsign : ℤ := if value.head? = some '-' then -1 else 1
  let v := if value.head? = some '-' then value.tail else value
  let vsign := if v = [] then 0 else vsign
  let asign : ℤ := if asserted.head? = some '-' then -1 else 1
  let a := if asserted.head? = some '-' then asserted.tail else asserted
  -- the sign of the value, also where the assertion is empty
  let vsign := if a = [] then 0 else vsign
  let m := vsign - asign
  let m :=
    if m = 0 then
      let m : ℤ :=
        if v.length ≠ a.length then if v.length < a.length then -1 else 1
        else match Sync.memcmp v a with
          | .lt => -1
          | .eq => 0
          | .gt => 1
      if vsign < 0 then -m else m
    else m
  if ext && ordering then if 0 ≤ m then 1 else 0 else m

structure Canonical (ds : List Char) : Prop where
  digits : Digits ds
  ne_nil : ds ≠ []
  no_zero : ds = ['0'] ∨ ds.head? ≠ some '0'

def integerValue : List Char → ℤ
  | '-' :: ds => -(number ds)
  | ds => number ds

theorem Canonical.head?_ne_minus {ds : List Char} (h : Canonical ds) : ds.head? ≠ some '-' := fun hm =>
  absurd (h.digits _ (List.mem_of_head? hm)) (by decide)

theorem Canonical.integerValue_eq {ds : List Char} (h : Canonical ds) : integerValue ds = number ds := by
  unfold integerValue
  split
  · exact absurd rfl h.head?_ne_minus
  · rfl

theorem validate_cases {s : List Char} (h : integerValidate s = true) :
    Canonical s ∨ ∃ ds, s = '-' :: ds ∧ Canonical ds ∧ ds.head? ≠ some '0' := by
  unfold integerValidate at h
  split at h
  · cases h
  · rename_i val
    split_ifs at h with hnil hzero
    exact Or.inr ⟨val, rfl, ⟨List.all_eq_true.mp h, hnil, Or.inr hzero⟩, hzero⟩
  · obtain rfl := of_decide_eq_true h
    exact Or.inl ⟨by decide, by simp, Or.inl rfl⟩
  · rename_i hnil _ hzero
    refine Or.inl ⟨List.all_eq_true.mp h, hnil, Or.inr fun hz => ?_⟩
    obtain ⟨t, rfl⟩ := List.head?_eq_some_iff.mp hz
    exact hzero t rfl

theorem Canonical.pow_le {ds : List Char} (h : Canonical ds) : ds = ['0'] ∨ 10 ^ (ds.length - 1) ≤ number ds :=
  h.no_zero.imp_right (pow_le_number h.digits h.ne_nil)

theorem Canonical.lt_of_length_lt {ds ds' : List Char} (h : Canonical ds) (h' : Canonical ds') (hlen : ds.length < ds'.length) :
    number ds < number ds' := by
  have hpos := List.length_pos_iff.mpr h.ne_nil
  rcases h'.pow_le with rfl | hpow
  · rw [List.length_singleton] at hlen
    omega
  · calc number ds < 10 ^ ds.length := number_lt h.digits
      _ ≤ 10 ^ (ds'.length - 1) := Nat.pow_le_pow_right (by omega) (by omega)
      _ ≤ number ds' := hpow

theorem Canonical.cmp_eq {ds ds' : List Char} (h : Canonical ds) (h' : Canonical ds') :
    cmp (number ds) (number ds') = (cmp ds.length ds'.length).then (cmp ds ds') := by
  rcases lt_trichotomy ds.length ds'.length with hlen | hlen | hlen
  · rw [cmp_eq_lt_iff _ _ |>.mpr hlen, Ordering.lt_then, cmp_eq_lt_iff]
    exact h.lt_of_length_lt h' hlen
  · rw [hlen, cmp_self_eq_eq, Ordering.eq_then, cmp_number h.digits h'.digits hlen]
  · rw [cmp_eq_gt_iff _ _ |>.mpr hlen, Ordering.gt_then, cmp_eq_gt_iff]
    exact h'.lt_of_length_lt h hlen

theorem cmp_magnitude {ds ds' : List Char} (h : Canonical ds) (h' : Canonical ds') :
    cmp (if ds.length ≠ ds'.length then if ds.length < ds'.length then -1 else 1
      else match Sync.memcmp ds ds' with
        | .lt => -1
        | .eq => 0
        | .gt => (1 : ℤ)) 0 = cmp (number ds) (number ds') := by
  rw [h.cmp_eq h', Sync.memcmp_eq_cmp]
  rcases lt_trichotomy ds.length ds'.length with hlen | hlen | hlen
  · rw [cmp_eq_lt_iff _ _ |>.mpr hlen, if_pos hlen.ne, if_pos hlen]
    rfl
  · rw [hlen, cmp_self_eq_eq, if_neg (by simp), Ordering.eq_then]
    cases cmp ds ds' <;> rfl
  · rw [cmp_eq_gt_iff _ _ |>.mpr hlen, if_pos hlen.ne', if_neg hlen.not_gt]
    rfl

theorem cmp_neg_zero (m : ℤ) : cmp (-m) 0 = (cmp m 0).swap := by
  rw [cmp_swap]
  exact cmp_congr (by omega) (by omega)

theorem integerMatch_sign {value asserted : List Char} (hv : integerValidate value = true)
    (ha : integerValidate asserted = true) {ext ordering : Bool} (hext : (ext && ordering) = false) :
    cmp (integerMatch ext ordering value asserted) 0 = cmp (integerValue value) (integerValue asserted) := by
  rcases validate_cases hv with h | ⟨v, rfl, h, h0⟩ <;> rcases validate_cases ha with h' | ⟨a, rfl, h', h0'⟩
  · have hmag := cmp_magnitude h h'
    rw [h.integerValue_eq, h'.integerValue_eq, cmp_natCast, ← hmag]
    simp [integerMatch, hext, h.head?_ne_minus, h'.head?_ne_minus, h.ne_nil, h'.ne_nil]
  · have hpos := number_pos h'.digits h'.ne_nil h0'
    have hneg : cmp (number value : ℤ) (-(number a : ℤ)) = .gt := (cmp_eq_gt_iff _ _).mpr (by omega)
    rw [h.integerValue_eq, integerValue, hneg]
    simp [integerMatch, hext, h.head?_ne_minus, h'.ne_nil, h.ne_nil]
  · have hpos := number_pos h.digits h.ne_nil h0
    have hneg : cmp (-(number v : ℤ)) (number asserted) = .lt := (cmp_eq_lt_iff _ _).mpr (by omega)
    rw [h'.integerValue_eq, integerValue, hneg]
    simp [integerMatch, hext, h'.head?_ne_minus, h.ne_nil, h'.ne_nil]
  · have hmag := cmp_magnitude h h'
    have hswap : cmp (-(number v : ℤ)) (-(number a : ℤ)) = (cmp (number v) (number a)).swap := by
      rw [cmp_swap]
      exact cmp_congr (by omega) (by omega)
    rw [integerValue, integerValue, hswap, ← hmag, ← cmp_neg_zero]
    simp [integerMatch, hext, h.ne_nil, h'.ne_nil]

theorem integerMatch_ext {value asserted : List Char} (hv : integerValidate value = true)
    (ha : integerValidate asserted = true) :
    integerMatch true true value asserted = if integerValue asserted ≤ integerValue value then 1 else 0 := by
  have hsign := integerMatch_sign hv ha (show (false && false) = false from rfl)
  have hmatch : integerMatch true true value asserted = if 0 ≤ integerMatch false false value asserted then 1 else 0 := rfl
  have hle : 0 ≤ integerMatch false false value asserted ↔ integerValue asserted ≤ integerValue value := by
    rw [← not_lt, ← not_lt, ← cmp_eq_lt_iff, ← cmp_eq_lt_iff, hsign]
  simp only [hmatch, hle]

end Slapd
end ReOpenLDAP
