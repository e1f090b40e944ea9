import Mathlib.Algebra.Order.Ring.Int
import Mathlib.Data.List.Basic

/-!
# Lib.Squeeze

Lists with each run of one element made a single one.

* `squeeze`         — the list without repetitions of the element.
-/

namespace ReOpenLDAP
namespace Squeeze

variable {α : Type*} [DecidableEq α] {s : α}

def squeeze (s : α) : List α → List α
  | [] => []
  | [c] => [c]
  | c :: d :: l => if c = s ∧ d = s then squeeze s (d :: l) else c :: squeeze s (d :: l)

def Apart (s : α) (a b : List α) : Prop := ¬ (a.getLast? = some s ∧ b.head? = some s)

/-- No cut between the pieces is inside a run, also where there are empty pieces. -/
def AllApart (s : α) : List (List α) → Prop
  | [] => True
  | p :: ps => Apart s p ps.flatten ∧ AllApart s ps

section

variable {a b : List α}

theorem squeeze_run (l : List α) : squeeze s (s :: s :: l) = squeeze s (s :: l) := by rw [squeeze, if_pos ⟨rfl, rfl⟩]

theorem squeeze_cons {c d : α} (h : ¬ (c = s ∧ d = s)) (l : List α) : squeeze s (c :: d :: l) = c :: squeeze s (d :: l) := by
  rw [squeeze, if_neg h]

theorem head?_squeeze (l : List α) : (squeeze s l).head? = l.head? := by
  induction l using squeeze.induct s with
  | case1 => rfl
  | case2 c => rfl
  | case3 c d l h ih =>
    obtain ⟨rfl, rfl⟩ := h
    rw [squeeze_run, ih]
    rfl
  | case4 c d l h ih => rw [squeeze_cons h]; rfl

theorem squeeze_eq_nil {l : List α} : squeeze s l = [] ↔ l = [] := by
  rw [← List.head?_eq_none_iff, head?_squeeze, List.head?_eq_none_iff]

theorem squeeze_append (h : Apart s a b) : squeeze s (a ++ b) = squeeze s a ++ squeeze s b := by
  induction a using squeeze.induct s with
  | case1 => rfl
  | case2 c =>
    cases b with
    | nil => rfl
    | cons d b =>
      have hcut : ¬ (c = s ∧ d = s) := by
        rintro ⟨rfl, rfl⟩
        exact h ⟨rfl, rfl⟩
      exact squeeze_cons hcut b
  | case3 c d l hrun ih =>
    obtain ⟨rfl, rfl⟩ := hrun
    have ih := ih fun hcut => h ⟨by rw [List.getLast?_cons_cons]; exact hcut.1, hcut.2⟩
    rw [squeeze_run]
    exact (squeeze_run _).trans ih
  | case4 c d l hrun ih =>
    have ih := ih fun hcut => h ⟨by rw [List.getLast?_cons_cons]; exact hcut.1, hcut.2⟩
    rw [squeeze_cons hrun]
    exact (squeeze_cons hrun _).trans (congrArg (c :: ·) ih)

theorem exists_append {w y z : List α} (h : squeeze s w = y ++ z) :
    ∃ a b, w = a ++ b ∧ squeeze s a = y ∧ squeeze s b = z ∧ Apart s a b := by
  have hnil : ∀ b : List α, Apart s [] b := fun b hcut => by cases hcut.1
  induction w using squeeze.induct s generalizing y with
  | case1 =>
    obtain ⟨rfl, rfl⟩ := List.append_eq_nil_iff.mp h.symm
    exact ⟨[], [], rfl, rfl, rfl, hnil []⟩
  | case2 c =>
    rcases List.append_eq_singleton_iff.mp h.symm with ⟨rfl, rfl⟩ | ⟨rfl, rfl⟩
    · exact ⟨[], [c], rfl, rfl, rfl, hnil _⟩
    · exact ⟨[c], [], rfl, rfl, rfl, fun hcut => by cases hcut.2⟩
  | case3 c d l hrun ih =>
    obtain ⟨rfl, rfl⟩ := hrun
    rw [squeeze_run] at h
    obtain ⟨a, b, hab, rfl, rfl, hcut⟩ := ih h
    cases a with
    | nil => exact ⟨[], _, rfl, rfl, by rw [squeeze_run, hab]; rfl, hnil _⟩
    | cons e a =>
      obtain ⟨rfl, rfl⟩ := List.cons.inj hab
      exact ⟨_, b, rfl, squeeze_run a, rfl, fun h => hcut ⟨by rw [← h.1]; exact List.getLast?_cons_cons.symm, h.2⟩⟩
  | case4 c d l hrun ih =>
    rw [squeeze_cons hrun] at h
    cases y with
    | nil => exact ⟨[], _, rfl, rfl, by rw [squeeze_cons hrun]; exact h, hnil _⟩
    | cons e y =>
      obtain ⟨rfl, htail⟩ := List.cons.inj h
      obtain ⟨a, b, hab, rfl, rfl, hcut⟩ := ih htail
      cases a with
      | nil =>
        refine ⟨[c], b, congrArg (c :: ·) hab, rfl, rfl, fun h => hrun ⟨Option.some.inj h.1, ?_⟩⟩
        have hhead := h.2
        rw [show b = d :: l from hab.symm] at hhead
        exact Option.some.inj hhead
      | cons f a =>
        obtain ⟨rfl, rfl⟩ := List.cons.inj hab
        exact ⟨c :: d :: a, b, rfl, squeeze_cons hrun a, rfl,
          fun h => hcut ⟨by rw [← h.1]; exact List.getLast?_cons_cons.symm, h.2⟩⟩

end

theorem squeeze_flatten {ps : List (List α)} (h : AllApart s ps) : squeeze s ps.flatten = (ps.map (squeeze s)).flatten := by
  induction ps with
  | nil => rfl
  | cons p ps ih =>
    rw [List.flatten_cons, squeeze_append h.1, ih h.2]
    rfl

theorem exists_pieces {w : List α} {qs : List (List α)} (hne : qs ≠ []) (h : squeeze s w = qs.flatten) :
    ∃ ps, w = ps.flatten ∧ ps.map (squeeze s) = qs ∧ AllApart s ps := by
  induction qs generalizing w with
  | nil => exact absurd rfl hne
  | cons q qs ih =>
    obtain ⟨a, b, rfl, rfl, hb, hcut⟩ := exists_append h
    by_cases hqs : qs = []
    · subst hqs
      have hnil : b = [] := squeeze_eq_nil.mp hb
      subst hnil
      exact ⟨[a], rfl, rfl, ⟨(fun hcut => by cases hcut.2), trivial⟩⟩
    · obtain ⟨ps, rfl, rfl, hps⟩ := ih hqs hb
      exact ⟨a :: ps, rfl, rfl, hcut, hps⟩

end Squeeze
end ReOpenLDAP
