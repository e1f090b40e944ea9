import Mathlib.Algebra.Order.Ring.Int
import Mathlib.Data.List.Nodup

/-!
# Lib.Chain

Singly linked lists in a heap. A heap gives the cell at an address, or `none` if the address is not allocated.
-/

namespace ReOpenLDAP

open Function

variable {δ : Type*}

structure Cell (δ : Type*) where
  next : Option Nat
  data : δ

def CellChain (h : Nat → Option (Cell δ)) : Option Nat → List (Nat × δ) → Prop
  | p, [] => p = none
  | p, x :: l => p = some x.1 ∧ ∃ n, h x.1 = some ⟨n, x.2⟩ ∧ CellChain h n l

namespace CellChain

variable {h h' : Nat → Option (Cell δ)} {p : Option Nat} {l u w : List (Nat × δ)} {a n : Nat} {d e : δ}

theorem nil_iff : CellChain h none l ↔ l = [] := by
  cases l with
  | nil => exact ⟨fun _ => rfl, fun _ => rfl⟩
  | cons x l =>
    constructor
    · intro hc
      cases hc.1
    · intro hl
      cases hl

theorem cons_of_some (hc : CellChain h (some a) l) : ∃ n d w, l = (a, d) :: w ∧ h a = some ⟨n, d⟩ ∧ CellChain h n w := by
  cases l with
  | nil => cases hc
  | cons x l =>
    obtain ⟨hx, n, hn, hl⟩ := hc
    cases hx
    exact ⟨n, x.2, l, rfl, hn, hl⟩

theorem suffix (hc : CellChain h p (u ++ (a, d) :: w)) : ∃ n, h a = some ⟨n, d⟩ ∧ CellChain h n w := by
  induction u generalizing p with
  | nil =>
    obtain ⟨-, n, hn, hw⟩ := hc
    exact ⟨n, hn, hw⟩
  | cons x u ih =>
    obtain ⟨-, n, -, hu⟩ := hc
    exact ih hu

theorem cell_of_mem (hc : CellChain h p l) (hm : (a, d) ∈ l) : ∃ n, h a = some ⟨n, d⟩ := by
  obtain ⟨u, w, rfl⟩ := List.append_of_mem hm
  obtain ⟨n, hn, -⟩ := hc.suffix
  exact ⟨n, hn⟩

theorem frame (hc : CellChain h p l) (hsame : ∀ x ∈ l, h' x.1 = h x.1) : CellChain h' p l := by
  induction l generalizing p with
  | nil => exact hc
  | cons x l ih =>
    obtain ⟨hp, n, hn, hl⟩ := hc
    exact ⟨hp, n, (hsame x List.mem_cons_self).trans hn, ih hl fun y hy => hsame y (List.mem_cons_of_mem _ hy)⟩

theorem unique {l' : List (Nat × δ)} (hc : CellChain h p l) (hc' : CellChain h p l') : l = l' := by
  induction l generalizing p l' with
  | nil =>
    have hp : p = none := hc
    rw [hp] at hc'
    exact (nil_iff.mp hc').symm
  | cons x l ih =>
    obtain ⟨hp, n, hn, hl⟩ := hc
    rw [hp] at hc'
    obtain ⟨n', d', l'', rfl, hn', hl''⟩ := hc'.cons_of_some
    rw [hn] at hn'
    cases hn'
    rw [ih hl hl'']

theorem push (hc : CellChain h p l) (hnew : ∀ x ∈ l, x.1 ≠ n) : CellChain (Function.update h n (some ⟨p, e⟩)) (some n) ((n, e) :: l) := by
  refine ⟨rfl, p, update_self _ _ _, hc.frame ?_⟩
  intro x hx
  exact update_of_ne (hnew x hx) _ _

theorem insert_after {m : Option Nat} (hc : CellChain h p (u ++ (a, d) :: w)) (hnd : ((u ++ (a, d) :: w).map Prod.fst).Nodup)
    (hnew : ∀ x ∈ u ++ (a, d) :: w, x.1 ≠ n) (ha : h a = some ⟨m, d⟩) :
    CellChain (Function.update (Function.update h n (some ⟨m, e⟩)) a (some ⟨some n, d⟩)) p (u ++ (a, d) :: (n, e) :: w) := by
  induction u generalizing p with
  | nil =>
    obtain ⟨hp, m', hm', hw⟩ := hc
    rw [ha] at hm'
    cases hm'
    have hna : n ≠ a := (hnew (a, d) (by simp)).symm
    have haw : ∀ x ∈ w, x.1 ≠ a := by
      intro x hx heq
      exact (List.nodup_cons.mp hnd).1 (List.mem_map.mpr ⟨x, hx, heq⟩)
    refine ⟨hp, some n, update_self _ _ _, rfl, m, ?_, hw.frame ?_⟩
    · exact (update_of_ne hna _ _).trans (update_self _ _ _)
    · intro x hx
      rw [update_of_ne (haw x hx), update_of_ne (hnew x (by simp [hx]))]
  | cons y u ih =>
    obtain ⟨hp, k, hk, hu⟩ := hc
    obtain ⟨hy, hnd⟩ := List.nodup_cons.mp hnd
    have hya : y.1 ≠ a := fun heq => hy (List.mem_map.mpr ⟨(a, d), by simp, heq.symm⟩)
    refine ⟨hp, k, ?_, ih hu hnd fun x hx => hnew x (List.mem_cons_of_mem _ hx)⟩
    rw [update_of_ne hya, update_of_ne (hnew y List.mem_cons_self)]
    exact hk

theorem pop (hc : CellChain h p ((a, d) :: l)) (hnd : (((a, d) :: l).map Prod.fst).Nodup) :
    ∃ m, h a = some ⟨m, d⟩ ∧ CellChain (Function.update h a none) m l := by
  obtain ⟨-, m, hm, hl⟩ := hc
  refine ⟨m, hm, hl.frame ?_⟩
  intro x hx
  exact update_of_ne (fun heq => (List.nodup_cons.mp hnd).1 (List.mem_map.mpr ⟨x, hx, heq⟩)) _ _

end CellChain
end ReOpenLDAP
