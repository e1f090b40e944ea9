import Mathlib.Order.CountableDenseLinearOrder
import Mathlib.Data.List.Lex
import Mathlib.Tactic.Linarith

/-!
# Lib.Cmp

Three-way comparison place by place.
-/

namespace ReOpenLDAP
namespace Cmp

open List

theorem cmp_congr {α β : Type*} [LT α] [DecidableLT α] [LT β] [DecidableLT β] {a b : α} {a' b' : β} (h : a < b ↔ a' < b')
    (h' : b < a ↔ b' < a') : cmp a b = cmp a' b' := by
  simp only [cmp, cmpUsing, h, h']

theorem cmp_natCast (a b : ℕ) : cmp (a : ℤ) b = cmp a b := cmp_congr Int.ofNat_lt Int.ofNat_lt

theorem cmp_mul_add {k a b a' b' : ℤ} (hb : 0 ≤ b) (hbk : b < k) (hb' : 0 ≤ b') (hbk' : b' < k) :
    cmp (a * k + b) (a' * k + b') = (cmp a a').then (cmp b b') := by
  rcases lt_trichotomy a a' with h | rfl | h
  · rw [cmp_eq_lt_iff _ _ |>.mpr h, Ordering.lt_then, cmp_eq_lt_iff]
    nlinarith
  · rw [cmp_self_eq_eq, Ordering.eq_then, cmp_add_left]
  · rw [cmp_eq_gt_iff _ _ |>.mpr h, Ordering.gt_then, cmp_eq_gt_iff]
    nlinarith

theorem cmp_div_mod (v w k : ℕ) : (cmp (v / k) (w / k)).then (cmp (v % k) (w % k)) = cmp v w := by
  have hv := Nat.div_add_mod v k
  have hw := Nat.div_add_mod w k
  rcases lt_trichotomy (v / k) (w / k) with h | h | h
  · rw [cmp_eq_lt_iff _ _ |>.mpr h, Ordering.lt_then, eq_comm, cmp_eq_lt_iff]
    exact Nat.lt_of_div_lt_div h
  · rw [cmp_eq_eq_iff _ _ |>.mpr h, Ordering.eq_then]
    rw [h] at hv
    exact cmp_congr (by omega) (by omega)
  · rw [cmp_eq_gt_iff _ _ |>.mpr h, Ordering.gt_then, eq_comm, cmp_eq_gt_iff]
    exact Nat.lt_of_div_lt_div h

section

variable {α : Type*} [LinearOrder α]

theorem cmp_cons (c d : α) (s t : List α) : cmp (c :: s) (d :: t) = (cmp c d).then (cmp s t) := by
  rcases lt_trichotomy c d with h | rfl | h
  · simp [cmp, cmpUsing, cons_lt_cons_iff, h]
  · rw [cmp_self_eq_eq, Ordering.eq_then]
    exact cmp_congr cons_lt_cons_self cons_lt_cons_self
  · simp [cmp, cmpUsing, cons_lt_cons_iff, h, h.ne', h.not_gt]

theorem cmp_eq_iff (s t : List α) : cmp s t = .eq ↔ s = t := by
  induction s generalizing t with
  | nil => cases t <;> simp [cmp, cmpUsing]
  | cons c s ih =>
    cases t with
    | nil => simp [cmp, cmpUsing]
    | cons d t => rw [cmp_cons, Ordering.then_eq_eq, cmp_eq_eq_iff, ih, List.cons.injEq]

theorem cmp_ne_gt (s t : List α) : cmp s t ≠ .gt ↔ s ≤ t := by
  rw [← not_lt]
  unfold cmp cmpUsing
  by_cases h : s < t
  · simp [h, List.lt_asymm h]
  · by_cases h' : t < s <;> simp [h, h']

theorem cmp_append {p q : List α} (h : p.length = q.length) (s t : List α) :
    cmp (p ++ s) (q ++ t) = (cmp p q).then (cmp s t) := by
  induction p generalizing q with
  | nil =>
    rw [eq_nil_of_length_eq_zero h.symm, (cmp_eq_iff _ _).mpr rfl]
    rfl
  | cons c p ih =>
    cases q with
    | nil => cases h
    | cons d q => rw [cons_append, cons_append, cmp_cons, cmp_cons, ih (Nat.succ_inj.mp h), Ordering.then_assoc]

theorem cmp_take_ne_gt {s t : List α} {k : ℕ} (hs : k ≤ s.length) (ht : k ≤ t.length) (h : cmp s t ≠ .gt) :
    cmp (s.take k) (t.take k) ≠ .gt := by
  have hlen : (s.take k).length = (t.take k).length := by
    rw [length_take_of_le hs, length_take_of_le ht]
  intro hgt
  rw [← take_append_drop k s, ← take_append_drop k t, cmp_append hlen, hgt] at h
  exact h rfl

theorem cmp_take (s t : List α) :
    (cmp (s.take (min s.length t.length)) (t.take (min s.length t.length))).then (cmp s.length t.length) = cmp s t := by
  induction s generalizing t with
  | nil =>
    cases t with
    | nil => rfl
    | cons d t => simp [cmp, cmpUsing]
  | cons c s ih =>
    cases t with
    | nil => simp [cmp, cmpUsing]
    | cons d t =>
      rw [length_cons, length_cons, Nat.add_min_add_right, take_succ_cons, take_succ_cons, cmp_cons, cmp_cons,
        cmp_add_right, Ordering.then_assoc, ih]

end

end Cmp
end ReOpenLDAP
