import Mathlib.Algebra.Order.Ring.Int
import Mathlib.Data.List.Induction
import Mathlib.Data.List.ReduceOption

/-!
# Lib.InPlace

Loops that move the elements of an array. An access outside of the array is `none`.
-/

namespace ReOpenLDAP
namespace InPlace

open List

variable {α : Type*}

theorem insertIdx_middle (pre mid : List α) (c : α) : (pre ++ mid).insertIdx pre.length c = pre ++ c :: mid := by
  induction pre with
  | nil => rfl
  | cons x pre ih => exact congrArg (x :: ·) ih

/-- `a[j] = x` -/
def store (a : List α) (j : Nat) (x : α) : Option (List α) := if j < a.length then some (a.set j x) else none

/-- `for (; j < n; j++) a[j] = a[j + 1];` -/
def shiftDown (a : List α) (n j : Nat) : Option (List α) :=
  if _h : j < n then do
    let x ← a[j + 1]?
    let a ← store a j x
    shiftDown a n (j + 1)
  else some a
termination_by n - j

/-- `for (j = slot + n; j > slot; j--) a[j] = a[j - 1];` -/
def shiftUp (a : List α) (slot : Nat) : Nat → Option (List α)
  | 0 => some a
  | n + 1 => do
    let x ← a[slot + n]?
    let a ← store a (slot + n + 1) x
    shiftUp a slot n

/-- Moves the cells from `i` on that are not empty to the places from `j` on, and cuts the rest off. -/
def compact (a : List (Option α)) (i j : Nat) : List (Option α) :=
  if h : i < a.length then
    match a[i] with
    | none => compact a (i + 1) j
    | some x => compact (if j ≠ i then a.set j (some x) else a) (i + 1) (j + 1)
  else a.take j
termination_by a.length - i
decreasing_by
  · omega
  · split
    · rw [length_set]
      omega
    · omega

theorem store_eq {a : List α} {j : Nat} (h : j < a.length) (x : α) : store a j x = some (a.set j x) := if_pos h

theorem set_middle (pre post : List α) (x y : α) : (pre ++ x :: post).set pre.length y = pre ++ y :: post := by
  rw [set_append_right _ _ (Nat.le_refl _), Nat.sub_self]
  rfl

theorem getElem?_middle (pre post : List α) (x : α) : (pre ++ x :: post)[pre.length]? = some x := by
  rw [List.getElem?_append_right (Nat.le_refl _), Nat.sub_self]
  rfl

theorem store_middle (pre post : List α) (x y : α) : store (pre ++ x :: post) pre.length y = some (pre ++ y :: post) := by
  rw [store_eq (by simp), set_middle]

theorem shiftDown_spec (pre mid post : List α) (x : α) :
    ∃ y, shiftDown (pre ++ x :: (mid ++ post)) (pre.length + mid.length) pre.length = some (pre ++ (mid ++ y :: post)) := by
  induction mid generalizing pre x with
  | nil =>
    rw [shiftDown, dif_neg (by simp)]
    exact ⟨x, rfl⟩
  | cons m mid ih =>
    have hread : (pre ++ x :: (m :: mid ++ post))[pre.length + 1]? = some m := by
      rw [List.getElem?_append_right (by omega), Nat.add_sub_cancel_left]
      rfl
    have hstore : store (pre ++ x :: (m :: mid ++ post)) pre.length m = some ((pre ++ [m]) ++ m :: (mid ++ post)) := by
      rw [store_middle, append_assoc]
      rfl
    obtain ⟨y, hy⟩ := ih (pre ++ [m]) m
    refine ⟨y, ?_⟩
    have hlen : (pre ++ [m]).length + mid.length = pre.length + (m :: mid).length := by
      simp only [length_append, length_cons, length_nil]
      omega
    rw [hlen, length_append, length_singleton] at hy
    rw [shiftDown, dif_pos (by simp)]
    simp only [hread, hstore, Option.bind_eq_bind, Option.bind_some]
    rw [hy, append_assoc]
    rfl

theorem shiftUp_spec (pre mid post : List α) (s : α) :
    ∃ y, shiftUp (pre ++ (mid ++ s :: post)) pre.length mid.length = some (pre ++ y :: (mid ++ post)) := by
  induction mid using List.reverseRecOn generalizing s post with
  | nil => exact ⟨s, rfl⟩
  | append_singleton mid m ih =>
    have hread : (pre ++ (mid ++ [m] ++ s :: post))[pre.length + mid.length]? = some m := by
      rw [← length_append, append_assoc, ← append_assoc]
      exact getElem?_middle (pre ++ mid) (s :: post) m
    have hstore : store (pre ++ (mid ++ [m] ++ s :: post)) (pre.length + mid.length + 1) m =
        some (pre ++ (mid ++ m :: (m :: post))) := by
      have hlen : pre.length + mid.length + 1 = (pre ++ (mid ++ [m])).length := by simp [Nat.add_assoc]
      rw [hlen, ← append_assoc, store_middle]
      simp
    obtain ⟨y, hy⟩ := ih (m :: post) m
    refine ⟨y, ?_⟩
    rw [length_append, length_singleton, shiftUp]
    simp only [hread, hstore, Option.bind_eq_bind, Option.bind_some]
    rw [hy, append_assoc]
    rfl

theorem compact_from (done gap : List (Option α)) (rest : List (Option α)) :
    compact (done ++ (gap ++ rest)) (done.length + gap.length) done.length = done ++ rest.reduceOption.map some := by
  induction rest generalizing done gap with
  | nil =>
    rw [compact, dif_neg (by simp)]
    simp
  | cons c rest ih =>
    have hget : (done ++ (gap ++ c :: rest))[done.length + gap.length]? = some c := by
      rw [← append_assoc, ← length_append]
      exact getElem?_middle _ _ _
    obtain ⟨hlt, hcell⟩ := List.getElem?_eq_some_iff.mp hget
    rw [compact, dif_pos hlt, hcell]
    cases c with
    | none =>
      have hnext := ih done (gap ++ [none])
      rw [append_assoc, length_append, length_singleton, ← Nat.add_assoc] at hnext
      rw [reduceOption_cons_of_none]
      exact hnext
    | some x =>
      rw [reduceOption_cons_of_some, map_cons]
      cases gap with
      | nil =>
        have hnext := ih (done ++ [some x]) []
        simp only [length_append, length_singleton, length_nil, Nat.add_zero, List.nil_append, append_assoc,
          singleton_append] at hnext
        simp only [length_nil, Nat.add_zero, List.nil_append, ne_eq, not_true_eq_false, if_false]
        exact hnext
      | cons g gap =>
        have hset : (done ++ (g :: gap ++ some x :: rest)).set done.length (some x) =
            (done ++ [some x]) ++ ((gap ++ [some x]) ++ rest) := by
          rw [cons_append, set_middle]
          simp
        have hnext := ih (done ++ [some x]) (gap ++ [some x])
        have hlen : (done ++ [some x]).length + (gap ++ [some x]).length = done.length + (g :: gap).length + 1 := by
          simp only [length_append, length_cons, length_nil]
          omega
        rw [hlen, length_append, length_singleton] at hnext
        dsimp only
        rw [if_pos (by simp), hset, hnext]
        simp

theorem compact_eq (a : List (Option α)) : compact a 0 0 = a.reduceOption.map some := compact_from [] [] a

theorem reduceOption_map_some (l : List α) : (l.map some).reduceOption = l := by
  induction l with
  | nil => rfl
  | cons x l ih => rw [map_cons, reduceOption_cons_of_some, ih]

theorem reduceOption_set_none {a : List (Option α)} {i : ℕ} {x : α} (h : a[i]? = some (some x)) :
    (a.set i none).reduceOption.length = a.reduceOption.length - 1 := by
  obtain ⟨hlt, hx⟩ := List.getElem?_eq_some_iff.mp h
  obtain ⟨pre, post, rfl, rfl⟩ : ∃ pre post, a = pre ++ some x :: post ∧ i = pre.length := by
    refine ⟨a.take i, a.drop (i + 1), ?_, ?_⟩
    · rw [← hx, ← drop_eq_getElem_cons hlt, take_append_drop]
    · rw [length_take, Nat.min_eq_left (Nat.le_of_lt hlt)]
  rw [set_middle]
  simp only [reduceOption_append, reduceOption_cons_of_none, reduceOption_cons_of_some, length_append,
    length_cons]
  omega

end InPlace
end ReOpenLDAP
