import Mathlib.Algebra.Order.Ring.Int
import Mathlib.Data.List.Basic

/-!
# Lib.Slot

Binary search for a place in a list. A probe tells of an element whether it is before the place, at it or behind it.
-/

namespace ReOpenLDAP
namespace Slot

open List

variable {α : Type*}

/-- Whether there is an element at the place, and the place; `none` for an access outside of the list. -/
def slotLoop (f : α → Ordering) (xs : List α) (base n : Nat) : Option (Bool × Nat) :=
  let pivot := n / 2
  let i := base + pivot
  match xs[i]? with
  | none => none
  | some x =>
    match f x with
    | .eq => some (true, i)
    | .lt => if _h : 0 < n - (pivot + 1) then slotLoop f xs (i + 1) (n - (pivot + 1)) else some (false, i + 1)
    | .gt => if _h : 0 < pivot then slotLoop f xs base pivot else some (false, i)
termination_by n

def Probes (f : α → Ordering) (xs : List α) : Prop := xs.Pairwise fun a b => f a = .lt ∨ f b = .gt

structure Splits (f : α → Ordering) (xs : List α) (i : Nat) : Prop where
  le : i ≤ xs.length
  before : ∀ x ∈ xs.take i, f x = .lt
  behind : ∀ x ∈ xs.drop i, f x = .gt

def Found (f : α → Ordering) (xs : List α) : Bool × Nat → Prop
  | (true, i) => ∃ x, xs[i]? = some x ∧ f x = .eq
  | (false, i) => Splits f xs i

variable {f : α → Ordering} {xs : List α} {x : α} {i : Nat}

theorem split_at (h : xs[i]? = some x) : xs = xs.take i ++ x :: xs.drop (i + 1) := by
  obtain ⟨hlt, rfl⟩ := List.getElem?_eq_some_iff.mp h
  rw [← drop_eq_getElem_cons hlt, take_append_drop]

theorem take_succ_at (h : xs[i]? = some x) : xs.take (i + 1) = xs.take i ++ [x] := by
  obtain ⟨hlt, rfl⟩ := List.getElem?_eq_some_iff.mp h
  exact take_succ_eq_append_getElem hlt

theorem drop_at (h : xs[i]? = some x) : xs.drop i = x :: xs.drop (i + 1) := by
  obtain ⟨hlt, rfl⟩ := List.getElem?_eq_some_iff.mp h
  exact drop_eq_getElem_cons hlt

theorem Probes.before (hp : Probes f xs) (h : xs[i]? = some x) (hx : f x ≠ .gt) : ∀ y ∈ xs.take i, f y = .lt := by
  intro y hy
  have hpair := hp
  rw [Probes, split_at h, pairwise_append] at hpair
  exact (hpair.2.2 y hy x mem_cons_self).resolve_right hx

theorem Probes.behind (hp : Probes f xs) (h : xs[i]? = some x) (hx : f x ≠ .lt) : ∀ y ∈ xs.drop (i + 1), f y = .gt := by
  intro y hy
  have hpair := hp
  rw [Probes, split_at h, pairwise_append, pairwise_cons] at hpair
  exact (hpair.2.1.1 y hy).resolve_left hx

theorem Probes.lt_upTo (hp : Probes f xs) (h : xs[i]? = some x) (hx : f x = .lt) : ∀ y ∈ xs.take (i + 1), f y = .lt := by
  intro y hy
  rw [take_succ_at h] at hy
  rcases List.mem_append.mp hy with hy | hy
  · exact hp.before h (by simp [hx]) y hy
  · rw [List.mem_singleton.mp hy, hx]

theorem Probes.gt_from (hp : Probes f xs) (h : xs[i]? = some x) (hx : f x = .gt) : ∀ y ∈ xs.drop i, f y = .gt := by
  intro y hy
  rw [drop_at h] at hy
  rcases List.mem_cons.mp hy with rfl | hy
  · exact hx
  · exact hp.behind h (by simp [hx]) y hy

theorem slotLoop_spec (hp : Probes f xs) {base n : Nat} (hn : 0 < n) (hlen : base + n ≤ xs.length)
    (hbefore : ∀ y ∈ xs.take base, f y = .lt) (hbehind : ∀ y ∈ xs.drop (base + n), f y = .gt) :
    ∃ r, slotLoop f xs base n = some r ∧ Found f xs r := by
  induction n using Nat.strongRecOn generalizing base with
  | _ n ih =>
    have hpivot : base + n / 2 < xs.length := by omega
    have hget : xs[base + n / 2]? = some xs[base + n / 2] := List.getElem?_eq_getElem hpivot
    unfold slotLoop
    simp only [hget]
    cases hprobe : f xs[base + n / 2] with
    | eq => exact ⟨_, rfl, _, hget, hprobe⟩
    | lt =>
      have hupTo := hp.lt_upTo hget hprobe
      dsimp only
      by_cases hrest : 0 < n - (n / 2 + 1)
      · rw [dif_pos hrest]
        have hend : base + n / 2 + 1 + (n - (n / 2 + 1)) = base + n := by omega
        exact ih (n - (n / 2 + 1)) (by omega) hrest (by omega) hupTo (hend ▸ hbehind)
      · have hend : base + n / 2 + 1 = base + n := by omega
        rw [dif_neg hrest]
        exact ⟨_, rfl, by omega, hupTo, hend ▸ hbehind⟩
    | gt =>
      have hfrom := hp.gt_from hget hprobe
      dsimp only
      by_cases hrest : 0 < n / 2
      · rw [dif_pos hrest]
        exact ih (n / 2) (by omega) hrest (by omega) hbefore hfrom
      · have hend : base + n / 2 = base := by omega
        rw [dif_neg hrest]
        exact ⟨_, rfl, by omega, by rw [hend]; exact hbefore, hfrom⟩

theorem slotLoop_found (hp : Probes f xs) (hne : xs ≠ []) : ∃ r, slotLoop f xs 0 xs.length = some r ∧ Found f xs r :=
  slotLoop_spec hp (List.length_pos_iff.mpr hne) (by omega) (by simp) (by simp)

theorem Splits.not_eq (h : Splits f xs i) : ∀ x ∈ xs, f x ≠ .eq := by
  intro x hx
  rw [← take_append_drop i xs] at hx
  rcases List.mem_append.mp hx with hx | hx
  · simp [h.before x hx]
  · simp [h.behind x hx]

end Slot
end ReOpenLDAP
