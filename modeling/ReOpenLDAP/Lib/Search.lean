import Mathlib.Order.CountableDenseLinearOrder
import ReOpenLDAP.Lib.DupSort

/-!
# Lib.Search

Binary search by halving a window that starts after `base` and has `n` elements. Positions are
counted from 1: `search b xs` is the position of the first element of a strictly increasing list
that is not less than `b`, and `xs.length + 1` if there is none.
-/

namespace ReOpenLDAP
namespace Search

open List

variable {β : Type*} [LinearOrder β]

def searchLoop (b : β) (xs : List β) (n base cursor : Nat) (val : Ordering) : Nat :=
  if 0 < n then
    let pivot := n / 2
    match xs[base + pivot]? with
    | none => base + pivot + 1
    | some x =>
      match cmp b x with
      | .lt => searchLoop b xs pivot base (base + pivot + 1) .lt
      | .gt => searchLoop b xs (n - (pivot + 1)) (base + pivot + 1) (base + pivot + 1) .gt
      | .eq => base + pivot + 1
  else if val = .gt then cursor + 1 else cursor
termination_by n
decreasing_by all_goals omega

def search (b : β) (xs : List β) : Nat := searchLoop b xs xs.length 0 1 .eq

/-- Everything before position `r` is less than `b`, everything from it on is not. -/
def Splits (b : β) (xs : List β) (r : Nat) : Prop :=
  1 ≤ r ∧ r ≤ xs.length + 1 ∧ (∀ i x, xs[i]? = some x → i + 1 < r → x < b) ∧
    ∀ i x, xs[i]? = some x → r ≤ i + 1 → b ≤ x

variable {xs : List β}

theorem sorted_getElem? (hs : xs.Pairwise (· < ·)) {i j : Nat} {x y : β}
    (hi : xs[i]? = some x) (hj : xs[j]? = some y) (hij : i < j) : x < y := by
  obtain ⟨hi', rfl⟩ := List.getElem?_eq_some_iff.mp hi
  obtain ⟨hj', rfl⟩ := List.getElem?_eq_some_iff.mp hj
  exact List.pairwise_iff_getElem.mp hs i j hi' hj' hij

theorem searchLoop_splits {b : β} (hs : xs.Pairwise (· < ·)) (n base cursor : Nat) (val : Ordering) (hlen : base + n ≤ xs.length)
    (hbefore : ∀ i x, xs[i]? = some x → i < base → x < b)
    (hbehind : ∀ i x, xs[i]? = some x → base + n ≤ i → b < x)
    (hcur : n = 0 → cursor + (if val = .gt then 1 else 0) = base + 1) :
    Splits b xs (searchLoop b xs n base cursor val) := by
  induction n using Nat.strongRecOn generalizing base cursor val with
  | _ n ih =>
    unfold searchLoop
    by_cases hn : 0 < n
    · rw [if_pos hn]
      have hpiv : base + n / 2 < xs.length := by omega
      have hx : xs[base + n / 2]? = some xs[base + n / 2] := List.getElem?_eq_getElem hpiv
      simp only [hx]
      cases hc : cmp b xs[base + n / 2] with
      | lt =>
        have hlt := (cmp_eq_lt_iff _ _).mp hc
        refine ih (n / 2) (by omega) base _ _ (by omega) hbefore (fun i x hi hle => ?_) (by simp)
        rcases Nat.lt_or_eq_of_le hle with h | h
        · exact hlt.trans (sorted_getElem? hs hx hi h)
        · rw [← h, hx] at hi
          cases hi
          exact hlt
      | gt =>
        have hgt := (cmp_eq_gt_iff _ _).mp hc
        refine ih (n - (n / 2 + 1)) (by omega) _ _ _ (by omega) (fun i x hi hlt => ?_)
          (fun i x hi hle => hbehind i x hi (by omega)) (by simp)
        rcases Nat.lt_or_eq_of_le (Nat.lt_succ_iff.mp hlt) with h | h
        · exact (sorted_getElem? hs hi hx h).trans hgt
        · rw [h, hx] at hi
          cases hi
          exact hgt
      | eq =>
        have heq : b = xs[base + n / 2] := (cmp_eq_eq_iff _ _).mp hc
        change Splits b xs (base + n / 2 + 1)
        refine ⟨by omega, by omega, fun i x hi hlt => ?_, fun i x hi hle => ?_⟩
        · exact heq ▸ sorted_getElem? hs hi hx (by omega)
        · rcases Nat.lt_or_eq_of_le (Nat.succ_le_succ_iff.mp hle) with h | h
          · exact (heq ▸ sorted_getElem? hs hx hi h).le
          · rw [← h, hx] at hi
            cases hi
            exact heq.le
    · have h0 : n = 0 := by omega
      have hr : (if val = .gt then cursor + 1 else cursor) = base + 1 := by
        rw [← hcur h0]
        split <;> rfl
      rw [if_neg hn, hr]
      refine ⟨by omega, by omega, fun i x hi hlt => hbefore i x hi (by omega), fun i x hi hle => ?_⟩
      exact (hbehind i x hi (by omega)).le

theorem search_spec (hs : xs.Pairwise (· < ·)) (b : β) : Splits b xs (search b xs) :=
  searchLoop_splits hs _ _ _ _ (by omega) (by omega)
    (fun i x hi hle => by
      obtain ⟨h, -⟩ := List.getElem?_eq_some_iff.mp hi
      omega)
    (by simp)

theorem mem_drop_search (hs : xs.Pairwise (· < ·)) {b x : β} : x ∈ xs.drop (search b xs - 1) ↔ x ∈ xs ∧ b ≤ x := by
  obtain ⟨h1, -, hbefore, hfrom⟩ := search_spec hs b
  constructor
  · intro hx
    obtain ⟨i, hi⟩ := mem_iff_getElem?.mp hx
    rw [List.getElem?_drop] at hi
    exact ⟨mem_of_getElem? hi, hfrom _ _ hi (by omega)⟩
  · rintro ⟨hx, hle⟩
    obtain ⟨i, hi⟩ := mem_iff_getElem?.mp hx
    have : search b xs ≤ i + 1 := by
      by_contra hlt
      exact absurd (hbefore i x hi (by omega)) (not_lt.mpr hle)
    refine mem_iff_getElem?.mpr ⟨i - (search b xs - 1), ?_⟩
    rw [List.getElem?_drop, ← hi]
    congr 1
    omega

theorem search_found (hs : xs.Pairwise (· < ·)) (b : β) : xs[search b xs - 1]? = some b ↔ b ∈ xs := by
  constructor
  · exact fun h => mem_of_getElem? h
  · intro hb
    obtain ⟨h1, -, hbefore, hfrom⟩ := search_spec hs b
    obtain ⟨i, hi⟩ := mem_iff_getElem?.mp hb
    have hle : search b xs ≤ i + 1 := by
      by_contra hlt
      exact lt_irrefl b (hbefore i b hi (by omega))
    rcases Nat.lt_or_eq_of_le hle with hlt | heq
    · -- an element strictly before `b`'s own place is not less than `b`: impossible
      have hlen : search b xs - 1 < xs.length := by
        obtain ⟨h, -⟩ := List.getElem?_eq_some_iff.mp hi
        omega
      have hx := List.getElem?_eq_getElem hlen
      have h2 := hfrom _ _ hx (by omega)
      exact absurd (sorted_getElem? hs hx hi (by omega)) (not_lt.mpr h2)
    · rw [heq]
      simpa using hi

end Search
end ReOpenLDAP
