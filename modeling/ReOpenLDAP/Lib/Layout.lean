import Mathlib.Algebra.Ring.Nat
import Mathlib.Data.List.Basic

/-!
# Lib.Layout

Words one behind the other in a memory, each with a terminator.
-/

namespace ReOpenLDAP

open List

structure Span where
  off : Nat
  len : Nat
deriving DecidableEq

namespace Layout

variable {α : Type*} {m m' : Nat → α} {p q : Nat} {t : α}

def read (m : Nat → α) (s : Span) : List α := (List.range s.len).map fun i => m (s.off + i)

/-- `memcpy` of `w` to `p`. -/
def write (m : Nat → α) (p : Nat) (w : List α) : Nat → α :=
  fun i => if p ≤ i then (w[i - p]?).getD (m i) else m i

def terminated (t : α) (ws : List (List α)) : List α := ws.flatMap (· ++ [t])

def size (ws : List (List α)) : Nat := (ws.map fun w => w.length + 1).sum

def layout : Nat → List (List α) → List Span
  | _, [] => []
  | p, w :: ws => ⟨p, w.length⟩ :: layout (p + w.length + 1) ws

/-- With a terminator behind each. -/
def Apart (a b : Span) : Prop := a.off + a.len < b.off ∨ b.off + b.len < a.off

instance (a b : Span) : Decidable (Apart a b) := inferInstanceAs (Decidable (_ ∨ _))

@[simp] theorem terminated_nil : terminated t ([] : List (List α)) = [] := rfl

@[simp] theorem terminated_cons (w : List α) (ws : List (List α)) :
    terminated t (w :: ws) = w ++ t :: terminated t ws := by
  simp [terminated]

@[simp] theorem terminated_append (vs ws : List (List α)) :
    terminated t (vs ++ ws) = terminated t vs ++ terminated t ws := flatMap_append

theorem length_terminated (t : α) (ws : List (List α)) : (terminated t ws).length = size ws := by
  simp [terminated, size, length_flatMap]

theorem size_cons (w : List α) (ws : List (List α)) : size (w :: ws) = w.length + 1 + size ws := by
  simp [size]

theorem size_append (vs ws : List (List α)) : size (vs ++ ws) = size vs + size ws := by
  simp [size]

@[simp] theorem length_read (m : Nat → α) (s : Span) : (read m s).length = s.len := by simp [read]

theorem write_below {w : List α} {i : Nat} (h : i < p) : write m p w i = m i := if_neg (by omega)

theorem write_nil (m : Nat → α) (p : Nat) : write m p [] = m := by
  funext i
  simp [write]

theorem write_append (m : Nat → α) (p : Nat) (v w : List α) :
    write (write m p v) (p + v.length) w = write m p (v ++ w) := by
  funext i
  unfold write
  by_cases hv : p + v.length ≤ i
  · have hout : v[i - p]? = none := List.getElem?_eq_none (by omega)
    rw [if_pos hv, if_pos (by omega), if_pos (by omega), List.getElem?_append_right (by omega), hout,
      Nat.sub_add_eq, Option.getD_none]
  · rw [if_neg hv]
    by_cases hp : p ≤ i
    · rw [if_pos hp, if_pos hp, List.getElem?_append_left (by omega)]
    · rw [if_neg hp, if_neg hp]

theorem read_congr {s : Span} (h : ∀ i, s.off ≤ i → i < s.off + s.len → m i = m' i) : read m s = read m' s := by
  refine map_congr_left fun i hi => h _ (by omega) ?_
  have := List.mem_range.mp hi
  omega

theorem read_add (m : Nat → α) (p a b : Nat) : read m ⟨p, a + b⟩ = read m ⟨p, a⟩ ++ read m ⟨p + a, b⟩ := by
  simp [read, range_add, Nat.add_assoc, Function.comp_def]

theorem read_write (m : Nat → α) (p : Nat) (w : List α) : read (write m p w) ⟨p, w.length⟩ = w := by
  refine ext_getElem (length_read _ _) fun i hi hw => ?_
  simp [read, write, List.getElem?_eq_getElem hw]

theorem read_layout {ws : List (List α)} (h : read m ⟨p, size ws⟩ = terminated t ws) :
    (layout p ws).map (read m) = ws := by
  induction ws generalizing p with
  | nil => rfl
  | cons w ws ih =>
    rw [terminated_cons, size_cons, Nat.add_assoc, read_add, read_add _ _ 1] at h
    obtain ⟨hw, hrest⟩ := append_inj h (length_read _ _)
    rw [← singleton_append] at hrest
    have hws := (append_inj hrest (length_read _ _)).2
    rw [layout, map_cons, hw, ih hws]

theorem layout_append (p : Nat) (vs ws : List (List α)) :
    layout p (vs ++ ws) = layout p vs ++ layout (p + size vs) ws := by
  induction vs generalizing p with
  | nil => rfl
  | cons v vs ih => rw [cons_append, layout, layout, cons_append, ih, size_cons, ← Nat.add_assoc, ← Nat.add_assoc]

theorem layout_bounds {ws : List (List α)} {s : Span} (h : s ∈ layout p ws) : p ≤ s.off ∧ s.off + s.len < p + size ws := by
  induction ws generalizing p with
  | nil => cases h
  | cons w ws ih =>
    rw [size_cons]
    rcases List.mem_cons.mp h with rfl | h
    · simp only
      omega
    · have := ih h
      omega

theorem layout_apart (p : Nat) (ws : List (List α)) : (layout p ws).Pairwise Apart := by
  induction ws generalizing p with
  | nil => exact .nil
  | cons w ws ih => exact .cons (fun s hs => Or.inl (layout_bounds hs).1) (ih _)

end Layout
end ReOpenLDAP
