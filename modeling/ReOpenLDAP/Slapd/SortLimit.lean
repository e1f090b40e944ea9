import ReOpenLDAP.Slapd.SortValsSpec

/-!
# Slapd.SortLimit

How many values `slap_sort_vals` can sort.

* `slap_sort_vals_iff` — every list of a length is sorted exactly up to `maxVals`.
-/

namespace ReOpenLDAP
namespace Slapd
namespace SortVals

/-- Ascending values, but for the one in the middle and the tenth from the end, which are exchanged. -/
def lateSplit (n q : ℕ) : ℕ := Equiv.swap ((n - 1) / 2) (n - 10) q

section

variable {n : ℕ} {comp : Fin n → Fin n → ℕ × Ordering} {cmp : Fin n → Fin n → Ordering} {l ir : ℕ} {ix : Ix n}

theorem median_ordered {ix1 : Ix n} (hcomp : ∀ a b, comp a b = (0, cmp a b)) (hix : exch ix ((l + ir) / 2) (l + 1) = ix1)
    (hends : cmp (ix1 l) (ix1 ir) = .lt) (hhigh : cmp (ix1 (l + 1)) (ix1 ir) = .lt) (hlow : cmp (ix1 l) (ix1 (l + 1)) = .lt) :
    median comp l ir ix = (ix1, (0, .lt), none) := by
  have hkeep : ∀ {x y}, cmp (ix1 x) (ix1 y) = .lt → arrange cmp ix1 x y = ix1 := fun h => if_neg (by simp [h])
  rw [median_eq hcomp, hix]
  simp only [hkeep hends, hkeep hhigh, hkeep hlow, hends, hhigh, hlow, reduceCtorEq, if_false]

theorem partition_at {t : ℕ} {a : Fin n} (hcomp : ∀ a b, comp a b = (0, cmp a b)) (hl : l < t) (ht : t + 1 < ir) (hir : ir < n)
    (hbelow : ∀ q, l < q → q ≤ t → cmp (ix q) a = .lt) (habove : ∀ q, t < q → q ≤ ir → cmp (ix q) a = .gt) :
    partitionLoop comp a n l ir ix = .ok (t + 1, t, ix, 0, .gt) := by
  obtain ⟨fuel, rfl⟩ : ∃ fuel, n = fuel + 1 := ⟨n - 1, by omega⟩
  have hfirst := habove (t + 1) (by omega) (by omega)
  have hnlt : cmp (ix (t + 1)) a ≠ .lt := by simp [hfirst]
  obtain ⟨i, hup, hli, hi, hstop, -⟩ := scanUp_spec hcomp (show l < t + 1 by omega) (by omega) hnlt
  obtain rfl : i = t + 1 := by
    by_contra hne
    exact hstop (hbelow i hli (by omega))
  have hlast := hbelow t hl (le_refl t)
  have hngt : cmp (ix t) a ≠ .gt := by simp [hlast]
  obtain ⟨j, hdown, htj, hj, hstop', -⟩ := scanDown_spec hcomp (show t < ir by omega) hngt
  obtain rfl : j = t := by
    by_contra hne
    exact hstop' (habove j (by omega) (by omega))
  rw [partitionLoop, hup, hfirst]
  simp only
  rw [hdown, hlast]
  simp

end

section

variable {n : ℕ}

/-- The values with the middle one at `1`. -/
def lateOrder (n q : ℕ) : ℕ := if q = 1 then n - 10 else if q = (n - 1) / 2 then 1 else if q = n - 10 then (n - 1) / 2 else q

theorem late_exch {ix : Ix n} (hn : 100 < n) (hix : ∀ q, q < n → (ix q : ℕ) = q) {q : ℕ} (hq : q < n) :
    lateSplit n (exch ix ((n - 1) / 2) 1 q) = lateOrder n q := by
  have hlt : Equiv.swap ((n - 1) / 2) 1 q < n := by
    rw [Equiv.swap_apply_def]
    split_ifs <;> omega
  rw [exch_eq, Function.comp_apply, hix _ hlt, lateSplit, lateOrder, Equiv.swap_apply_def, Equiv.swap_apply_def]
  split_ifs <;> omega

theorem lateSplit_overflow (hn : maxVals < n) (hint : n < 2 ^ 31) (sortedVal : Bool) :
    slapSortVals (fun a b => (0, compare a b)) sortedVal (fun i : Fin n => lateSplit n i) none = .error .intOverflow := by
  rw [maxVals] at hn
  unfold slapSortVals
  rw [dif_pos ⟨by omega, hint⟩]
  simp only [Option.getD_none]
  generalize hstart : (fun i : ℕ => (⟨i % n, Nat.mod_lt i (by omega)⟩ : Fin n)) = ix
  have hix : ∀ q, q < n → (ix q : ℕ) = q := by
    intro q hq
    rw [← hstart]
    exact Nat.mod_eq_of_lt hq
  generalize hix1 : exch ix ((n - 1) / 2) 1 = ix1
  have hval : ∀ q, q < n → lateSplit n (ix1 q) = lateOrder n q := by
    intro q hq
    rw [← hix1]
    exact late_exch (by omega) hix hq
  have hlt : ∀ p q, p < n → q < n → lateOrder n p < lateOrder n q → compare (lateSplit n (ix1 p)) (lateSplit n (ix1 q)) = .lt := by
    intro p q hp hq h
    rw [hval p hp, hval q hq]
    exact Nat.compare_eq_lt.mpr h
  have hmedian := @median_ordered n (fun a b => (0, compare (lateSplit n a) (lateSplit n b)))
    (fun a b => compare (lateSplit n a) (lateSplit n b)) 0 (n - 1) ix ix1 (fun _ _ => rfl) (by simpa using hix1)
    (hlt 0 (n - 1) (by omega) (by omega) (by unfold lateOrder; split_ifs <;> omega))
    (hlt 1 (n - 1) (by omega) (by omega) (by unfold lateOrder; split_ifs <;> omega))
    (hlt 0 1 (by omega) (by omega) (by
      rw [lateOrder, lateOrder, if_neg (by omega), if_neg (by omega), if_neg (by omega), if_pos rfl]
      omega))
  have hpart := @partition_at n (fun a b => (0, compare (lateSplit n a) (lateSplit n b)))
    (fun a b => compare (lateSplit n a) (lateSplit n b)) 1 (n - 1) ix1 (n - 10) (ix1 1) (fun _ _ => rfl) (by omega) (by omega) (by omega)
    (fun q hq hqt => hlt _ _ (by omega) (by omega) (by unfold lateOrder; split_ifs <;> omega))
    (fun q hq hqr => Std.OrientedCmp.gt_of_lt (hlt _ _ (by omega) (by omega) (by unfold lateOrder; split_ifs <;> omega)))
  obtain ⟨fuel, hfuel⟩ : ∃ fuel, 2 * n = fuel + 1 + 1 := ⟨2 * n - 2, by omega⟩
  rw [hfuel, sortLoop, if_neg (by rw [SMALL]; omega), if_neg (by omega), if_neg (by omega), hmedian]
  simp only [hpart, reduceCtorEq, if_false]
  rw [if_neg (by decide), if_neg (by omega), sortLoop, if_neg (by rw [SMALL]; omega), if_neg (by omega), if_pos (by omega)]

theorem equal_unseen (hn : 2 ^ 31 ≤ n) (sortedVal : Bool) :
    slapSortVals (fun a b => (0, compare a b)) sortedVal (fun _ : Fin n => 0) none = .ok ⟨0, fun _ => 0, none, none⟩ ∧
      Repeated compare (fun _ : Fin n => 0) ⟨0, by omega⟩ := by
  refine ⟨?_, ⟨1, by omega⟩, by simp, rfl⟩
  rw [slapSortVals, dif_neg (by omega)]

end

/-- All lists of `n` values are sorted, or their duplicate is found, exactly if there are at most `maxVals` values. -/
theorem slap_sort_vals_iff (n : ℕ) :
    (∀ (ν : Type) (cmp : ν → ν → Ordering) [Std.TransCmp cmp] (sortedVal : Bool) (vals : Fin n → ν) (nvals : Option (Fin n → ν)),
      ∃ r, slapSortVals (fun a b => (0, cmp a b)) sortedVal vals nvals = .ok r ∧ SortedTo cmp sortedVal vals nvals r) ↔ n ≤ maxVals := by
  constructor
  · intro h
    by_contra hn
    by_cases hint : n < 2 ^ 31
    · obtain ⟨r, heq, -⟩ := h ℕ compare true (fun i => lateSplit n i) none
      rw [lateSplit_overflow (by omega) hint] at heq
      cases heq
    · obtain ⟨r, heq, hr⟩ := h ℕ compare true (fun _ => 0) none
      obtain ⟨hzero, htwin⟩ := equal_unseen (show 2 ^ 31 ≤ n by omega) true
      rw [hzero] at heq
      obtain rfl := Except.ok.inj heq
      rcases hr with ⟨hr, -⟩ | ⟨hnot, -⟩
      · cases hr
      · exact hnot _ htwin
  · intro hn ν cmp _ sortedVal vals nvals
    exact slapSortVals_spec (fun _ _ => rfl) hn sortedVal vals nvals

/-- One value more than that. -/
theorem slap_sort_vals_late :
    slapSortVals (fun a b => (0, compare a b)) true (fun i : Fin (2 ^ 30 + 5) => lateSplit (2 ^ 30 + 5) i) none = .error .intOverflow ∧
    ¬ ∃ r, slapSortVals (fun a b => (0, compare a b)) true (fun i : Fin (2 ^ 30 + 5) => lateSplit (2 ^ 30 + 5) i) none = .ok r := by
  have h : slapSortVals (fun a b => (0, compare a b)) true (fun i : Fin (2 ^ 30 + 5) => lateSplit (2 ^ 30 + 5) i) none =
      .error .intOverflow := lateSplit_overflow (by decide) (by decide) true
  refine ⟨h, ?_⟩
  rintro ⟨r, hr⟩
  rw [h] at hr
  cases hr

end SortVals
end Slapd
end ReOpenLDAP
