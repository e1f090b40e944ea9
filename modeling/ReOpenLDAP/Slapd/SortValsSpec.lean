import Mathlib.Data.Fintype.EquivFin
import ReOpenLDAP.Lib.RangeSort
import ReOpenLDAP.Slapd.SortVals

/-!
# Slapd.SortValsSpec

What `slap_sort_vals` does with a total order.

* `Twin`               — a value with an equal one.
-/

namespace ReOpenLDAP
namespace Slapd
namespace SortVals

open RangeSort Function

section

variable {n : ℕ}

theorem exch_eq (ix : Ix n) (x y : ℕ) : exch ix x y = ix ∘ Equiv.swap x y := by
  funext k
  rw [exch, comp_apply, Equiv.swap_apply_def]
  by_cases hy : k = y
  · subst hy
    rw [update_self]
    split
    · rename_i hx
      rw [hx]
    · rw [if_pos rfl]
  · rw [update_of_ne hy]
    by_cases hx : k = x
    · subst hx
      rw [update_self, if_pos rfl]
    · rw [update_of_ne hx, if_neg hx, if_neg hy]

theorem within_exch {l r x y : ℕ} (ix : Ix n) (hx : l ≤ x ∧ x ≤ r) (hy : l ≤ y ∧ y ≤ r) : Within l r ix (exch ix x y) := by
  rw [exch_eq]
  exact .swap ix hx hy

@[simp] theorem exch_right (ix : Ix n) (x y : ℕ) : exch ix x y y = ix x := by rw [exch, update_self]

@[simp] theorem exch_left (ix : Ix n) (x y : ℕ) : exch ix x y x = ix y := by
  rw [exch_eq, comp_apply, Equiv.swap_apply_left]

theorem exch_other (ix : Ix n) {x y k : ℕ} (hx : k ≠ x) (hy : k ≠ y) : exch ix x y k = ix k := by
  rw [exch_eq, comp_apply, Equiv.swap_apply_of_ne_of_ne hx hy]

variable (cmp : Fin n → Fin n → Ordering)

abbrev Lt (a b : Fin n) : Prop := cmp a b = .lt

/-- The value at `i` has an equal one at another place. -/
def Twin (ix : Ix n) (i : ℕ) : Prop := i < n ∧ ∃ q, q < n ∧ q ≠ i ∧ cmp (ix i) (ix q) = .eq

end

section

variable {n : ℕ} {comp : Fin n → Fin n → ℕ × Ordering} (cmp : Fin n → Fin n → Ordering) {l j k : ℕ} {ix0 ix : Ix n} {a : Fin n}

/-- The value `a` is to go somewhere below `j`: `k` is free, the values above it are moved up. -/
structure Hole (l j k : ℕ) (ix0 ix : Ix n) (a : Fin n) : Prop where
  le : l ≤ k ∧ k ≤ j
  within : Within l j ix0 (Function.update ix k a)
  above : ∀ q, k < q → q ≤ j → cmp a (ix q) = .lt
  sorted : ∀ p q, l ≤ p → p < q → q ≤ j → p ≠ k → q ≠ k → cmp (ix p) (ix q) = .lt
  before : ∀ p, p < l → cmp (ix p) a = .lt

variable {cmp}

theorem Hole.down [Std.OrientedCmp cmp] (h : Hole cmp l j (k + 1) ix0 ix a) (hl : l ≤ k) (hgt : cmp (ix k) a = .gt) :
    Hole cmp l j k ix0 (Function.update ix (k + 1) (ix k)) a := by
  have hlt : cmp a (ix k) = .lt := Std.OrientedCmp.lt_of_gt hgt
  have hkj := h.le.2
  refine ⟨⟨hl, by omega⟩, ?_, fun q hq hqj => ?_, fun p q hp hpq hqj hpk hqk => ?_, fun p hp => ?_⟩
  · have hswap : Function.update (Function.update ix (k + 1) (ix k)) k a = Function.update ix (k + 1) a ∘ Equiv.swap k (k + 1) := by
      funext m
      rw [comp_apply, Equiv.swap_apply_def]
      by_cases hm : m = k
      · subst hm
        rw [update_self, if_pos rfl, update_self]
      · rw [update_of_ne hm, if_neg hm]
        by_cases hm' : m = k + 1
        · subst hm'
          rw [update_self, if_pos rfl, update_of_ne (Nat.ne_of_lt (Nat.lt_succ_self k))]
        · rw [update_of_ne hm', if_neg hm', update_of_ne hm']
    rw [hswap]
    exact h.within.trans (.swap _ ⟨hl, by omega⟩ ⟨by omega, hkj⟩)
  · by_cases hqk : q = k + 1
    · rw [hqk, update_self]
      exact hlt
    · rw [update_of_ne hqk]
      exact h.above q (by omega) hqj
  · by_cases hpk' : p = k + 1
    · rw [hpk', update_self, update_of_ne (by omega)]
      exact h.sorted k q hl (by omega) hqj (by omega) (by omega)
    · rw [update_of_ne hpk']
      by_cases hqk' : q = k + 1
      · rw [hqk', update_self]
        exact h.sorted p k hp (by omega) (by omega) (by omega) (by omega)
      · rw [update_of_ne hqk']
        exact h.sorted p q hp hpq hqj hpk' hqk'
  · rw [update_of_ne (by omega)]
    exact h.before p hp

variable [Std.TransCmp cmp] (hcomp : ∀ a b, comp a b = (0, cmp a b))
include hcomp

theorem shift_spec (last : ℕ × Ordering) (h : Hole cmp l j k ix0 ix a) (hlast : k = 0 → last = (0, .gt)) :
    ∃ k' ix' c, shift comp a last k ix = (k', ix', 0, c) ∧ Hole cmp l j k' ix0 ix' a ∧
      ((c = .eq ∧ l < k' ∧ cmp (ix' (k' - 1)) a = .eq) ∨ (c ≠ .eq ∧ ∀ p, l ≤ p → p < k' → cmp (ix' p) a = .lt)) := by
  induction k generalizing ix last with
  | zero =>
    refine ⟨0, ix, .gt, ?_, h, .inr ⟨by simp, fun p _ hp => absurd hp (Nat.not_lt_zero p)⟩⟩
    rw [shift, hlast rfl]
  | succ k ih =>
    have hl : cmp (ix k) a ≠ .lt → l ≤ k := by
      intro hne
      by_contra hlt
      exact hne (h.before k (by omega))
    rw [shift, hcomp]
    cases hc : cmp (ix k) a with
    | gt =>
      have hlk := hl (by simp [hc])
      exact ih _ (h.down hlk hc) (fun _ => rfl)
    | eq =>
      have hlk := hl (by simp [hc])
      exact ⟨k + 1, ix, .eq, rfl, h, .inl ⟨rfl, by omega, hc⟩⟩
    | lt =>
      refine ⟨k + 1, ix, .lt, rfl, h, .inr ⟨by simp, fun p hp hpk => ?_⟩⟩
      by_cases hpk' : p = k
      · rw [hpk']
        exact hc
      · have hkj := h.le.2
        exact Std.TransCmp.lt_trans (h.sorted p k hp (by omega) (by omega) (by omega) (by omega)) hc

theorem insert_spec (last : ℕ × Ordering) (hj : l < j) (hjn : j < n) (hsorted : ∀ p q, l ≤ p → p < q → q < j → cmp (ix p) (ix q) = .lt)
    (hbefore : ∀ p, p < l → cmp (ix p) (ix j) = .lt) : ∃ k' ix' c, shift comp (ix j) last j ix = (k', ix', 0, c) ∧
      Within l j ix (Function.update ix' k' (ix j)) ∧ ((c = .eq ∧ Twin cmp (Function.update ix' k' (ix j)) (k' - 1)) ∨
        (c ≠ .eq ∧ IncOn (Lt cmp) l j (Function.update ix' k' (ix j)))) := by
  have hself : Function.update ix j (ix j) = ix := update_eq_self j ix
  have hhole : Hole cmp l j j ix ix (ix j) := by
    refine ⟨⟨by omega, le_refl j⟩, ?_, fun q hq hqj => by omega, fun p q hp hpq hqj _ hqk => ?_, hbefore⟩
    · rw [hself]
      exact .refl l j ix
    · exact hsorted p q hp hpq (by omega)
  obtain ⟨k', ix', c, heq, h', hres⟩ := shift_spec hcomp last hhole (fun h0 => by omega)
  have hkj := h'.le
  refine ⟨k', ix', c, heq, h'.within, ?_⟩
  rcases hres with ⟨rfl, hk, htwin⟩ | ⟨hc, hlow⟩
  · refine .inl ⟨rfl, by omega, k', by omega, by omega, ?_⟩
    rw [update_self, update_of_ne (by omega)]
    exact htwin
  · refine .inr ⟨hc, fun p q hp hpq hqj => ?_⟩
    by_cases hpk : p = k'
    · rw [hpk, update_self, update_of_ne (by omega)]
      exact h'.above q (by omega) hqj
    · rw [update_of_ne hpk]
      by_cases hqk : q = k'
      · rw [hqk, update_self]
        exact hlow p hp (by omega)
      · rw [update_of_ne hqk]
        exact h'.sorted p q hp hpq hqj hpk hqk

theorem insertLoop_spec {m ir : ℕ} (last : ℕ × Ordering) (ix : Ix n) (hj : l < j) (hm : j + m = ir + 1) (hir : ir < n)
    (hlast : last.1 = 0 ∧ last.2 ≠ .eq) (hsorted : ∀ p q, l ≤ p → p < q → q < j → cmp (ix p) (ix q) = .lt)
    (hbefore : ∀ p q, p < l → l ≤ q → q ≤ ir → cmp (ix p) (ix q) = .lt) :
    ∃ ix' c o, insertLoop comp m j last ix = .ok (ix', (0, c), o) ∧ Within l ir ix ix' ∧
      ((c = .eq ∧ ∃ i, o = some i ∧ Twin cmp ix' i) ∨ (c ≠ .eq ∧ o = none ∧ IncOn (Lt cmp) l ir ix')) := by
  induction m generalizing j ix last with
  | zero =>
    obtain ⟨rc, c⟩ := last
    obtain ⟨rfl, hc⟩ := hlast
    refine ⟨ix, c, none, rfl, .refl l ir ix, .inr ⟨hc, rfl, fun p q hp hpq hq => ?_⟩⟩
    exact hsorted p q hp hpq (by omega)
  | succ m ih =>
    obtain ⟨k', ix', c, heq, hw, hres⟩ := insert_spec hcomp last hj (show j < n by omega) hsorted
      (fun p hp => hbefore p j hp (by omega) (by omega))
    have hw' := hw.mono (le_refl l) (show j ≤ ir by omega)
    rw [insertLoop, if_neg (by omega)]
    simp only [heq]
    rcases hres with ⟨rfl, htwin⟩ | ⟨hc, hinc⟩
    · exact ⟨_, .eq, some (k' - 1), if_pos rfl, hw', .inl ⟨rfl, _, rfl, htwin⟩⟩
    · rw [if_neg hc]
      obtain ⟨ix2, c2, o, heq2, hw2, hres2⟩ := ih (0, c) (Function.update ix' k' (ix j)) (show l < j + 1 by omega)
        (by omega) ⟨rfl, hc⟩ (fun p q hp hpq hq => hinc p q hp hpq (by omega)) (fun p q hp hq hqr => by
          obtain ⟨q', hq', hval⟩ := hw'.mem ⟨hq, hqr⟩
          rw [hw'.outside (.inl hp), hval]
          exact hbefore p q' hp hq'.1 hq'.2)
      exact ⟨ix2, c2, o, heq2, hw'.trans hw2, hres2⟩

end

section

variable {n : ℕ} {comp : Fin n → Fin n → ℕ × Ordering} {cmp : Fin n → Fin n → Ordering} {l ir i j : ℕ} {ix : Ix n} {a : Fin n}
  (hcomp : ∀ a b, comp a b = (0, cmp a b))
include hcomp

theorem scanUp_spec {s : ℕ} (hi : i < s) (hsn : s < n) (hs : cmp (ix s) a ≠ .lt) :
    ∃ i', scanUp comp a ix i = .ok (i', 0, cmp (ix i') a) ∧ i < i' ∧ i' ≤ s ∧ cmp (ix i') a ≠ .lt ∧
      ∀ q, i < q → q < i' → cmp (ix q) a = .lt := by
  induction hd : s - i generalizing i with
  | zero => omega
  | succ d ih =>
    rw [scanUp, if_pos (show i + 1 < n by omega), hcomp]
    by_cases hlt : cmp (ix (i + 1)) a = .lt
    · have hne : i + 1 ≠ s := by
        intro h
        exact hs (h ▸ hlt)
      obtain ⟨i', heq, hi', his, hne', hall⟩ := ih (show i + 1 < s by omega) (by omega)
      refine ⟨i', ?_, by omega, his, hne', fun q hq hqi => ?_⟩
      · simp only [if_pos hlt, heq]
      · by_cases hq' : q = i + 1
        · rw [hq']
          exact hlt
        · exact hall q (by omega) hqi
    · refine ⟨i + 1, ?_, by omega, by omega, hlt, fun q hq hqi => by omega⟩
      simp only [if_neg hlt]

omit hcomp in
theorem scanDown_stop {last : ℕ × Ordering} (h : last.2 ≠ .gt) : scanDown comp a ix j last = .ok (j, last) := by
  cases j with
  | zero => rw [scanDown, if_neg h]
  | succ j => rw [scanDown, if_neg h]

theorem scanDown_spec {t : ℕ} (ht : t < j) (hle : cmp (ix t) a ≠ .gt) :
    ∃ j', scanDown comp a ix j (0, .gt) = .ok (j', 0, cmp (ix j') a) ∧ t ≤ j' ∧ j' < j ∧ cmp (ix j') a ≠ .gt ∧
      ∀ q, j' < q → q < j → cmp (ix q) a = .gt := by
  induction j with
  | zero => omega
  | succ j ih =>
    rw [scanDown, if_pos rfl, hcomp]
    by_cases hgt : cmp (ix j) a = .gt
    · have hne : t ≠ j := by
        rintro rfl
        exact hle hgt
      obtain ⟨j', heq, htj, hj', hne', hall⟩ := ih (by omega)
      refine ⟨j', by rw [hgt, heq], htj, by omega, hne', fun q hq hqj => ?_⟩
      by_cases hq' : q = j
      · rw [hq']
        exact hgt
      · exact hall q hq (by omega)
    · exact ⟨j, scanDown_stop hgt, by omega, by omega, hgt, fun q hq hqj => by omega⟩

omit hcomp in
/-- The partition by `a` has got to `i` and `j`. -/
structure Parting (cmp : Fin n → Fin n → Ordering) (l ir i j : ℕ) (ix : Ix n) (a : Fin n) : Prop where
  le : l + 1 ≤ i ∧ i < j ∧ j ≤ ir
  pivot : ix (l + 1) = a
  low : ∀ q, l ≤ q → q ≤ i → q ≠ l + 1 → cmp (ix q) a = .lt
  high : ∀ q, j ≤ q → q ≤ ir → cmp (ix q) a = .gt

omit hcomp in
/-- The partition by `a` is at its end. -/
structure Parted (cmp : Fin n → Fin n → Ordering) (l ir j : ℕ) (ix : Ix n) (a : Fin n) : Prop where
  le : l + 1 ≤ j ∧ j < ir
  pivot : ix (l + 1) = a
  low : ∀ q, l ≤ q → q ≤ j → q ≠ l + 1 → cmp (ix q) a = .lt
  high : ∀ q, j < q → q ≤ ir → cmp (ix q) a = .gt

omit hcomp in
theorem Parting.round {i' j' : ℕ} (h : Parting cmp l ir i j ix a) (hi : i < i') (hij : i' < j') (hj : j' < j)
    (hup : ∀ q, i < q → q < i' → cmp (ix q) a = .lt) (hi' : cmp (ix i') a = .gt)
    (hdown : ∀ q, j' < q → q < j → cmp (ix q) a = .gt) (hj' : cmp (ix j') a = .lt) : Parting cmp l ir i' j' (exch ix i' j') a := by
  obtain ⟨hli, -, hjr⟩ := h.le
  refine ⟨⟨by omega, hij, by omega⟩, ?_, fun q hq hqi hne => ?_, fun q hq hqr => ?_⟩
  · rw [exch_other ix (by omega) (by omega)]
    exact h.pivot
  · by_cases hqi' : q = i'
    · rw [hqi', exch_left]
      exact hj'
    · rw [exch_other ix hqi' (by omega)]
      by_cases hle : q ≤ i
      · exact h.low q hq hle hne
      · exact hup q (by omega) (by omega)
  · by_cases hqj' : q = j'
    · rw [hqj', exch_right]
      exact hi'
    · rw [exch_other ix (by omega) hqj']
      by_cases hle : j ≤ q
      · exact h.high q hle hqr
      · exact hdown q (by omega) (by omega)

variable [Std.TransCmp cmp]

theorem partitionLoop_spec (fuel : ℕ) (hir : ir < n) (h : Parting cmp l ir i j ix a) (hfuel : j - i ≤ fuel) :
    ∃ i' j' ix' c, partitionLoop comp a fuel i j ix = .ok (i', j', ix', 0, c) ∧ Within l ir ix ix' ∧
      ((c = .eq ∧ Twin cmp ix' (l + 1)) ∨ (c = .gt ∧ i' = j' + 1 ∧ Parted cmp l ir j' ix' a)) := by
  induction fuel generalizing i j ix with
  | zero =>
    have := h.le
    omega
  | succ fuel ih =>
    obtain ⟨hli, hij, hjr⟩ := h.le
    have hself : cmp a a = .eq := Std.ReflCmp.compare_self
    have hend : cmp (ix j) a ≠ .lt := by
      rw [h.high j (le_refl j) hjr]
      simp
    obtain ⟨i', hup, hi, hij', hne, hlow⟩ := scanUp_spec hcomp hij (by omega) hend
    rw [partitionLoop, hup]
    simp only
    by_cases heq : cmp (ix i') a = .eq
    · -- equal to the pivot, and not the pivot
      rw [heq, scanDown_stop (by simp)]
      simp only
      rw [if_neg (by omega), if_true]
      refine ⟨i', j, ix, .eq, rfl, .refl l ir ix, .inl ⟨rfl, by omega, i', by omega, by omega, ?_⟩⟩
      rw [h.pivot]
      exact Std.OrientedCmp.eq_symm heq
    have hgt : cmp (ix i') a = .gt := by
      cases hc : cmp (ix i') a with
      | lt => exact absurd hc hne
      | eq => exact absurd hc heq
      | gt => rfl
    obtain ⟨t, hti, htj, hta⟩ : ∃ t, i' ≤ t + 1 ∧ t < j ∧ cmp (ix t) a ≠ .gt := by
      by_cases hfirst : i' = i + 1
      · by_cases hpiv : i = l + 1
        · exact ⟨l + 1, by omega, by omega, by rw [h.pivot, hself]; simp⟩
        · exact ⟨i, by omega, hij, by rw [h.low i (by omega) (le_refl i) hpiv]; simp⟩
      · exact ⟨i' - 1, by omega, by omega, by rw [hlow (i' - 1) (by omega) (by omega)]; simp⟩
    obtain ⟨j', hdown, htj', hj', hne', hhigh⟩ := scanDown_spec hcomp htj hta
    rw [hgt, hdown]
    simp only
    by_cases hcross : j' < i'
    · rw [if_pos hcross]
      refine ⟨i', j', ix, .gt, rfl, .refl l ir ix, .inr ⟨rfl, by omega, ⟨?_, ?_⟩, h.pivot, fun q hq hqj hqn => ?_, fun q hq hqr => ?_⟩⟩
      · omega
      · omega
      · by_cases hle : q ≤ i
        · exact h.low q hq hle hqn
        · exact hlow q (by omega) (by omega)
      · by_cases hle : j ≤ q
        · exact h.high q hle hqr
        · exact hhigh q hq (by omega)
    rw [if_neg hcross]
    by_cases heq' : cmp (ix j') a = .eq
    · rw [if_pos heq']
      refine ⟨i', j', ix, .eq, by rw [heq'], .refl l ir ix, .inl ⟨rfl, by omega, j', by omega, by omega, ?_⟩⟩
      rw [h.pivot]
      exact Std.OrientedCmp.eq_symm heq'
    rw [if_neg heq']
    have hlt : cmp (ix j') a = .lt := by
      cases hc : cmp (ix j') a with
      | lt => rfl
      | eq => exact absurd hc heq'
      | gt => exact absurd hc hne'
    have hij'' : i' < j' := by
      have : i' ≠ j' := by
        rintro rfl
        rw [hgt] at hlt
        cases hlt
      omega
    obtain ⟨i2, j2, ix2, c, hrec, hw, hres⟩ := ih (h.round hi hij'' hj' hlow hgt hhigh hlt) (by omega)
    exact ⟨i2, j2, ix2, c, hrec, (within_exch ix ⟨by omega, by omega⟩ ⟨by omega, by omega⟩).trans hw, hres⟩

omit hcomp in
theorem Parted.split (h : Parted cmp l ir j ix a) {p q : ℕ} (hp : l ≤ p) (hpj : p ≤ j) (hjq : j < q) (hq : q ≤ ir) :
    cmp (exch ix (l + 1) j p) (exch ix (l + 1) j q) = .lt := by
  have hle := h.le
  have hq' : cmp a (exch ix (l + 1) j q) = .lt := by
    rw [exch_other ix (by omega) (by omega)]
    exact Std.OrientedCmp.lt_of_gt (h.high q hjq hq)
  obtain ⟨p', hp', heq⟩ := (within_exch (l := l) (r := j) ix ⟨by omega, hle.1⟩ ⟨by omega, le_refl j⟩).mem ⟨hp, hpj⟩
  rw [heq]
  by_cases hpiv : p' = l + 1
  · rw [hpiv, h.pivot]
    exact hq'
  · exact Std.TransCmp.lt_trans (h.low p' hp'.1 hp'.2 hpiv) hq'

end

/-! ## The ranges -/

section

variable {n : ℕ} {comp : Fin n → Fin n → ℕ × Ordering} {cmp : Fin n → Fin n → Ordering} {l ir x y : ℕ} {ix : Ix n}

/-- The values at `x` and `y` in order. -/
def arrange (cmp : Fin n → Fin n → Ordering) (ix : Ix n) (x y : ℕ) : Ix n := if cmp (ix x) (ix y) = .gt then exch ix x y else ix

theorem within_arrange (hx : l ≤ x ∧ x ≤ ir) (hy : l ≤ y ∧ y ≤ ir) : Within l ir ix (arrange cmp ix x y) := by
  rw [arrange]
  split
  · exact within_exch ix hx hy
  · exact .refl l ir ix

theorem arrange_other {k : ℕ} (hx : k ≠ x) (hy : k ≠ y) : arrange cmp ix x y k = ix k := by
  rw [arrange]
  split
  · exact exch_other ix hx hy
  · rfl

theorem arrange_cases (cmp : Fin n → Fin n → Ordering) (ix : Ix n) (x y : ℕ) :
    (arrange cmp ix x y x = ix x ∧ arrange cmp ix x y y = ix y) ∨
      cmp (ix x) (ix y) = .gt ∧ arrange cmp ix x y x = ix y ∧ arrange cmp ix x y y = ix x := by
  rw [arrange]
  split
  · rename_i hgt
    exact .inr ⟨hgt, exch_left ix x y, exch_right ix x y⟩
  · exact .inl ⟨rfl, rfl⟩

theorem arrange_lt [Std.OrientedCmp cmp] (h : cmp (ix x) (ix y) ≠ .eq) : cmp (arrange cmp ix x y x) (arrange cmp ix x y y) = .lt := by
  rw [arrange]
  split
  · rename_i hgt
    rw [exch_left, exch_right]
    exact Std.OrientedCmp.lt_of_gt hgt
  · rename_i hgt
    cases hc : cmp (ix x) (ix y) with
    | lt => rfl
    | eq => exact absurd hc h
    | gt => exact absurd hc hgt

variable [Std.TransCmp cmp] (hcomp : ∀ a b, comp a b = (0, cmp a b))
include hcomp

omit [Std.TransCmp cmp] in
theorem median_eq : median comp l ir ix =
    (let ix := exch ix ((l + ir) / 2) (l + 1)
    if cmp (ix l) (ix ir) = .eq then (ix, (0, cmp (ix l) (ix ir)), some ir)
    else
      let ix := arrange cmp ix l ir
      if cmp (ix (l + 1)) (ix ir) = .eq then (ix, (0, cmp (ix (l + 1)) (ix ir)), some ir)
      else
        let ix := arrange cmp ix (l + 1) ir
        if cmp (ix l) (ix (l + 1)) = .eq then (ix, (0, cmp (ix l) (ix (l + 1))), some l)
        else (arrange cmp ix l (l + 1), (0, cmp (ix l) (ix (l + 1))), none)) := by
  have h : comp = fun a b => (0, cmp a b) := funext fun a => funext (hcomp a)
  subst h
  rfl

theorem median_spec (ix : Ix n) (hl : l + 1 < ir) (hir : ir < n) : ∃ ix' c o, median comp l ir ix = (ix', (0, c), o) ∧ Within l ir ix ix' ∧
    ((c = .eq ∧ ∃ i, o = some i ∧ Twin cmp ix' i) ∨
      (c ≠ .eq ∧ o = none ∧ cmp (ix' l) (ix' (l + 1)) = .lt ∧ cmp (ix' (l + 1)) (ix' ir) = .lt)) := by
  have hw1 : Within l ir ix (exch ix ((l + ir) / 2) (l + 1)) := within_exch ix ⟨by omega, by omega⟩ ⟨by omega, by omega⟩
  generalize hix1 : exch ix ((l + ir) / 2) (l + 1) = ix1 at hw1
  have hw2 : Within l ir ix (arrange cmp ix1 l ir) := hw1.trans (within_arrange ⟨by omega, by omega⟩ ⟨by omega, by omega⟩)
  have hcases1 := arrange_cases cmp ix1 l ir
  have hlt1 : cmp (ix1 l) (ix1 ir) ≠ .eq → cmp (arrange cmp ix1 l ir l) (arrange cmp ix1 l ir ir) = .lt := arrange_lt
  rw [median_eq hcomp]
  simp only [hix1]
  generalize arrange cmp ix1 l ir = ix2 at *
  by_cases h1 : cmp (ix1 l) (ix1 ir) = .eq
  · rw [if_pos h1]
    exact ⟨ix1, .eq, some ir, by rw [h1], hw1, .inl ⟨rfl, ir, rfl, hir, l, by omega, by omega, Std.OrientedCmp.eq_symm h1⟩⟩
  rw [if_neg h1]
  have hlt2 := hlt1 h1
  by_cases h2 : cmp (ix2 (l + 1)) (ix2 ir) = .eq
  · rw [if_pos h2]
    exact ⟨ix2, .eq, some ir, by rw [h2], hw2, .inl ⟨rfl, ir, rfl, hir, l + 1, by omega, by omega, Std.OrientedCmp.eq_symm h2⟩⟩
  rw [if_neg h2]
  have hw3 : Within l ir ix (arrange cmp ix2 (l + 1) ir) := hw2.trans (within_arrange ⟨by omega, by omega⟩ ⟨by omega, by omega⟩)
  have hlt3 : cmp (arrange cmp ix2 (l + 1) ir (l + 1)) (arrange cmp ix2 (l + 1) ir ir) = .lt := arrange_lt h2
  have hend3 : cmp (arrange cmp ix2 (l + 1) ir l) (arrange cmp ix2 (l + 1) ir ir) = .lt := by
    rw [arrange_other (by omega) (by omega)]
    obtain ⟨-, hir'⟩ | ⟨hgt, -, hir'⟩ := arrange_cases cmp ix2 (l + 1) ir
    · rw [hir']
      exact hlt2
    · rw [hir']
      exact Std.TransCmp.lt_trans hlt2 (Std.OrientedCmp.lt_of_gt hgt)
  generalize arrange cmp ix2 (l + 1) ir = ix3 at *
  by_cases h3 : cmp (ix3 l) (ix3 (l + 1)) = .eq
  · rw [if_pos h3]
    exact ⟨ix3, .eq, some l, by rw [h3], hw3, .inl ⟨rfl, l, rfl, by omega, l + 1, by omega, by omega, h3⟩⟩
  rw [if_neg h3]
  refine ⟨arrange cmp ix3 l (l + 1), cmp (ix3 l) (ix3 (l + 1)), none, rfl,
    hw3.trans (within_arrange ⟨by omega, by omega⟩ ⟨by omega, by omega⟩), .inr ⟨h3, rfl, arrange_lt h3, ?_⟩⟩
  have hend : arrange cmp ix3 l (l + 1) ir = ix3 ir := arrange_other (by omega) (by omega)
  rw [hend]
  obtain ⟨-, hmid⟩ | ⟨-, -, hmid⟩ := arrange_cases cmp ix3 l (l + 1)
  · rw [hmid]
    exact hlt3
  · rw [hmid]
    exact hend3

/-- So many values that `l + ir` is always an `int`. -/
def maxVals : ℕ := 2 ^ 30 + 4

def Sorts (cmp : Fin n → Fin n → Ordering) (ix ix' : Ix n) (c : Ordering) (o : Option ℕ) : Prop :=
  Within 0 (n - 1) ix ix' ∧ ((c = .eq ∧ ∃ i, o = some i ∧ Twin cmp ix' i) ∨ (c ≠ .eq ∧ ∀ p q, p < q → q < n → cmp (ix' p) (ix' q) = .lt))

omit [Std.TransCmp cmp] hcomp in
theorem Fits.room {stack : List (ℕ × ℕ)} (hn : n ≤ maxVals) (h : Fits n ((l, ir) :: stack)) (hsize : l + 8 ≤ ir) :
    2 * stack.length + 2 < istackSize := by
  have h9 : 2 ^ 3 * 2 ^ stack.length ≤ n := calc
    2 ^ 3 * 2 ^ stack.length ≤ rangeSize (l, ir) * 2 ^ stack.length := Nat.mul_le_mul_right _ (by rw [rangeSize]; simp only; omega)
    _ ≤ n := h.1
  rw [← Nat.pow_add] at h9
  have hlen : 3 + stack.length < 31 := (Nat.pow_lt_pow_iff_right Nat.one_lt_two).mp (lt_of_le_of_lt (h9.trans hn) (by decide))
  rw [istackSize]
  omega

theorem sortLoop_spec {fuel : ℕ} {stack : List (ℕ × ℕ)} (hn : n ≤ maxVals) (hpend : Pending (Lt cmp) n ((l, ir) :: stack) ix)
    (hfits : Fits n ((l, ir) :: stack)) (hfuel : work ((l, ir) :: stack) ≤ fuel) :
    ∃ ix' c o, sortLoop comp fuel l ir stack 0 ix = .ok (ix', (0, c), o) ∧ Sorts cmp ix ix' c o := by
  induction fuel generalizing l ir stack ix with
  | zero =>
    have hbound := hpend.bound _ (List.mem_cons_self ..)
    rw [work_cons, rangeSize] at hfuel
    simp only at hbound hfuel
    omega
  | succ fuel ih =>
    obtain ⟨hlir, hirn⟩ := hpend.bound _ (List.mem_cons_self ..)
    simp only at hlir hirn
    rw [work_cons, rangeSize] at hfuel
    simp only at hfuel
    rw [sortLoop]
    by_cases hsmall : ir - l < SMALL
    · rw [if_pos hsmall]
      obtain ⟨ix', c, o, heq, hw, hres⟩ := insertLoop_spec hcomp (0, .gt) ix (show l < l + 1 by omega)
        (show l + 1 + (ir - l) = ir + 1 by omega) hirn ⟨rfl, by simp⟩ (fun p q hp hpq hq => by omega)
        (fun p q hp hq hqr => hpend.before hp ⟨hq, hqr⟩)
      rw [heq]
      have hw0 := hw.mono (Nat.zero_le l) (show ir ≤ n - 1 by omega)
      rcases hres with ⟨rfl, i, rfl, htwin⟩ | ⟨hc, rfl, hinc⟩
      · exact ⟨ix', .eq, some i, rfl, hw0, .inl ⟨rfl, i, rfl, htwin⟩⟩
      have hdone := (hpend.within hw).done hinc
      cases stack with
      | nil => exact ⟨ix', c, none, rfl, hw0, .inr ⟨hc, hdone.sorted⟩⟩
      | cons s stack =>
        obtain ⟨ix2, c2, o2, heq2, hw2, hres2⟩ := ih hdone hfits.2 (show work (s :: stack) ≤ fuel by omega)
        exact ⟨ix2, c2, o2, heq2, hw0.trans hw2, hres2⟩
    have hsize : l + 8 ≤ ir := by
      rw [SMALL] at hsmall
      omega
    have hsum : ¬ 2 ^ 31 ≤ l + ir := by
      rw [maxVals] at hn
      omega
    rw [if_neg hsmall, if_neg (by omega), if_neg hsum]
    obtain ⟨ix1, c1, o1, heq1, hw1, hres1⟩ := median_spec hcomp ix (show l + 1 < ir by omega) hirn
    rw [heq1]
    have hw01 := hw1.mono (Nat.zero_le l) (show ir ≤ n - 1 by omega)
    rcases hres1 with ⟨rfl, i, rfl, htwin⟩ | ⟨-, rfl, hlow, hhigh⟩
    · exact ⟨ix1, .eq, some i, rfl, hw01, .inl ⟨rfl, i, rfl, htwin⟩⟩
    have hparting : Parting cmp l ir (l + 1) ir ix1 (ix1 (l + 1)) := by
      refine ⟨⟨le_refl _, by omega, le_refl ir⟩, rfl, fun q hq hqi hne => ?_, fun q hq hqr => ?_⟩
      · rw [show q = l by omega]
        exact hlow
      · rw [show q = ir by omega]
        exact Std.OrientedCmp.gt_of_lt hhigh
    obtain ⟨i, j, ix2, c2, heq2, hw2, hres2⟩ := partitionLoop_spec hcomp n hirn hparting (by omega)
    simp only [heq2]
    have hw02 := hw01.trans (hw2.mono (Nat.zero_le l) (show ir ≤ n - 1 by omega))
    rcases hres2 with ⟨rfl, htwin⟩ | ⟨rfl, rfl, hparted⟩
    · exact ⟨ix2, .eq, some (l + 1), rfl, hw02, .inl ⟨rfl, l + 1, rfl, htwin⟩⟩
    obtain ⟨hlj, hjr⟩ := hparted.le
    have hw3 : Within l ir ix2 (exch ix2 (l + 1) j) := within_exch ix2 ⟨by omega, by omega⟩ ⟨by omega, by omega⟩
    have hw03 := hw02.trans (hw3.mono (Nat.zero_le l) (show ir ≤ n - 1 by omega))
    have hsplit := (hpend.within ((hw1.trans hw2).trans hw3)).split (show l ≤ j by omega) hjr
      (fun p q hp hpj hjq hq => hparted.split hp hpj hjq hq)
    rw [if_neg (by simp), if_neg (by have := Fits.room hn hfits hsize; omega)]
    split
    · rename_i hlt
      obtain ⟨ix4, c4, o4, heq4, hw4, hres4⟩ := ih hsplit
        (hfits.push (by simp only [rangeSize]; omega) (by simp only [rangeSize]; omega))
        (by rw [work_cons, work_cons]; simp only [rangeSize]; omega)
      exact ⟨ix4, c4, o4, heq4, hw03.trans hw4, hres4⟩
    · rename_i hge
      obtain ⟨ix4, c4, o4, heq4, hw4, hres4⟩ := ih hsplit.swap
        (hfits.push (by simp only [rangeSize]; omega) (by simp only [rangeSize]; omega))
        (by rw [work_cons, work_cons]; simp only [rangeSize]; omega)
      exact ⟨ix4, c4, o4, heq4, hw03.trans hw4, hres4⟩

end

section

variable {n : ℕ} {ν : Type*} {mr : ν → ν → ℕ × Ordering} {cmp : ν → ν → Ordering} [Std.TransCmp cmp]

instance transCmp_comap {ι : Type*} (f : ι → ν) : Std.TransCmp fun a b => cmp (f a) (f b) where
  eq_swap := Std.OrientedCmp.eq_swap
  isLE_trans := Std.TransCmp.isLE_trans

theorem injOn_start (hn : 0 < n) : Set.InjOn (fun i : ℕ => (⟨i % n, Nat.mod_lt i hn⟩ : Fin n)) (Set.Iio n) := by
  intro p hp q hq heq
  have hmod := Fin.mk.inj heq
  rwa [Nat.mod_eq_of_lt hp, Nat.mod_eq_of_lt hq] at hmod

def Repeated (cmp : ν → ν → Ordering) (cv : Fin n → ν) (d : Fin n) : Prop := ∃ q, q ≠ d ∧ cmp (cv d) (cv q) = .eq

/-- What `slap_sort_vals` has found. -/
def SortedTo (cmp : ν → ν → Ordering) (sortedVal : Bool) (vals : Fin n → ν) (nvals : Option (Fin n → ν)) (r : Result n ν) : Prop :=
  (r = ⟨LDAP_TYPE_OR_VALUE_EXISTS, vals, nvals, r.dup⟩ ∧ ∃ d, r.dup = some d ∧ Repeated cmp (nvals.getD vals) d) ∨
    (∀ d, ¬ Repeated cmp (nvals.getD vals) d) ∧ ∃ σ : Equiv.Perm (Fin n), r = ⟨0, vals ∘ σ, nvals.map (· ∘ σ), none⟩ ∧
      (sortedVal = false → σ = 1) ∧
      (sortedVal = true → ∀ p q, p < q → cmp (nvals.getD vals (σ p)) (nvals.getD vals (σ q)) = .lt)

theorem not_repeated_of_inc {cv : Fin n → ν} (σ : Equiv.Perm (Fin n)) (hinc : ∀ p q, p < q → cmp (cv (σ p)) (cv (σ q)) = .lt)
    (d : Fin n) : ¬ Repeated cmp cv d := by
  rintro ⟨q, hqd, heq⟩
  obtain ⟨d, rfl⟩ := σ.surjective d
  obtain ⟨q, rfl⟩ := σ.surjective q
  rcases lt_trichotomy d q with hlt | rfl | hgt
  · rw [hinc d q hlt] at heq
    cases heq
  · exact hqd rfl
  · have hsymm : cmp (cv (σ q)) (cv (σ d)) = .eq := Std.OrientedCmp.eq_symm heq
    rw [hinc q d hgt] at hsymm
    cases hsymm

theorem slapSortVals_spec (hmr : ∀ a b, mr a b = (0, cmp a b)) (hn : n ≤ maxVals) (sortedVal : Bool) (vals : Fin n → ν)
    (nvals : Option (Fin n → ν)) : ∃ r, slapSortVals mr sortedVal vals nvals = .ok r ∧ SortedTo cmp sortedVal vals nvals r := by
  unfold slapSortVals SortedTo
  generalize nvals.getD vals = cv
  have hint : n < 2 ^ 31 := lt_of_le_of_lt hn (by decide)
  by_cases hone : 1 < n
  · rw [dif_pos ⟨hone, hint⟩]
    have hstart := injOn_start (show 0 < n by omega)
    simp only
    generalize (fun i : ℕ => (⟨i % n, Nat.mod_lt i (by omega)⟩ : Fin n)) = ix at hstart ⊢
    have hfits : Fits n [(0, n - 1)] := ⟨by simp only [rangeSize, List.length_nil]; omega, trivial⟩
    have hfuel : work [(0, n - 1)] ≤ 2 * n := by
      rw [work_cons, rangeSize, work, List.map_nil, List.sum_nil]
      omega
    obtain ⟨ix', c, o, heq, hw, hres⟩ := sortLoop_spec (fun a b => hmr (cv a) (cv b)) hn (pending_start (by omega) ix) hfits hfuel
    have hinj := hw.injOn (show n - 1 < n by omega) hstart
    rw [heq]
    rcases hres with ⟨rfl, i, rfl, hi, q, hq, hqi, htwin⟩ | ⟨hc, hsorted⟩
    · refine ⟨⟨LDAP_TYPE_OR_VALUE_EXISTS, vals, nvals, some (ix' i)⟩, by simp, .inl ⟨rfl, ix' i, rfl, ix' q, fun h => ?_, htwin⟩⟩
      exact hqi (hinj hq hi h)
    · have hbij : Function.Bijective fun p : Fin n => ix' p :=
        Finite.injective_iff_bijective.mp fun p q h => Fin.ext (hinj p.isLt q.isLt h)
      have hinc : ∀ p q, p < q → cmp (cv (Equiv.ofBijective _ hbij p)) (cv (Equiv.ofBijective _ hbij q)) = .lt :=
        fun p q hpq => hsorted p q hpq q.isLt
      have hnot := not_repeated_of_inc _ hinc
      cases sortedVal with
      | true => exact ⟨_, by simp [hc, comp_def], .inr ⟨hnot, Equiv.ofBijective _ hbij, rfl, by simp, fun _ => hinc⟩⟩
      | false => exact ⟨⟨0, vals, nvals, none⟩, by simp [hc], .inr ⟨hnot, 1, by simp [comp_def], by simp, by simp⟩⟩
  · rw [dif_neg fun h => hone h.1]
    have hsub : ∀ p q : Fin n, p = q := fun p q => Fin.ext (by omega)
    refine ⟨_, rfl, .inr ⟨?_, 1, by simp [comp_def], by simp, fun _ p q hpq => absurd (hsub p q) (ne_of_lt hpq)⟩⟩
    rintro d ⟨q, hqd, -⟩
    exact hqd (hsub q d)

end

end SortVals
end Slapd
end ReOpenLDAP
