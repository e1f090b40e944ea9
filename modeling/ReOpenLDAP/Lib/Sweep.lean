import Mathlib.Algebra.Order.Ring.Int
import Mathlib.Data.Finset.Card

/-!
# Lib.Sweep

The closure of a list under a successor function: an index goes along the list, and what is new from each value is put at
the end.
-/

namespace ReOpenLDAP
namespace Sweep

open List

variable {α : Type*} {l r r' out out' : List α}

/-- `l` comes first, then the values of `r` that `l` does not have, each of them once. -/
def Grown (l r out : List α) : Prop := ∃ fresh : List α, out = l ++ fresh ∧ fresh.Nodup ∧ ∀ x, x ∈ fresh ↔ x ∈ r ∧ x ∉ l

theorem Grown.same (h : ∀ x ∈ r, x ∈ l) : Grown l r l :=
  ⟨[], by simp, .nil, fun x => iff_of_false not_mem_nil fun ⟨hr, hl⟩ => hl (h x hr)⟩

theorem Grown.mem_iff (h : Grown l r out) (x : α) : x ∈ out ↔ x ∈ l ∨ x ∈ r := by
  obtain ⟨fresh, rfl, -, hmem⟩ := h
  rw [mem_append, hmem]
  by_cases hl : x ∈ l
  · exact iff_of_true (.inl hl) (.inl hl)
  · exact or_congr_right (and_iff_left hl)

theorem Grown.nodup_iff (h : Grown l r out) : out.Nodup ↔ l.Nodup := by
  obtain ⟨fresh, rfl, hnd, hmem⟩ := h
  refine ⟨List.Nodup.of_append_left, fun hl => hl.append hnd ?_⟩
  exact fun x hx hf => ((hmem x).mp hf).2 hx

theorem Grown.ne_nil (h : Grown l r out) (hl : l ≠ []) : out ≠ [] := by
  obtain ⟨fresh, rfl, -, -⟩ := h
  exact append_ne_nil_of_left_ne_nil hl fresh

theorem Grown.trans (h : Grown l r out) (h' : Grown out r' out') : Grown l (r ++ r') out' := by
  have hmem' := h.mem_iff
  obtain ⟨fresh, rfl, hnd, hmem⟩ := h
  obtain ⟨fresh', rfl, hnd', hfresh'⟩ := h'
  refine ⟨fresh ++ fresh', append_assoc .., hnd.append hnd' ?_, fun x => ?_⟩
  · exact fun x hx hx' => ((hfresh' x).mp hx').2 (mem_append_right _ hx)
  · rw [mem_append, hmem, hfresh', hmem', mem_append]
    tauto

def sweep (grow : List α → α → List α) : (fuel i : ℕ) → List α → Option (List α)
  | 0, _, _ => none
  | fuel + 1, i, l =>
    match l[i]? with
    | none => some l
    | some v => sweep grow fuel (i + 1) (grow l v)

def missing [DecidableEq α] (S : Finset α) (l : List α) : ℕ := (S.filter (· ∉ l)).card

theorem missing_grown [DecidableEq α] {S : Finset α} (hr : ∀ x ∈ r, x ∈ S) (h : Grown l r out) :
    out.length + missing S out ≤ l.length + missing S l := by
  obtain ⟨fresh, rfl, hnd, hmem⟩ := h
  have hsub : (S.filter (· ∉ l ++ fresh)) ∪ fresh.toFinset ⊆ S.filter (· ∉ l) := by
    intro x hx
    rcases Finset.mem_union.mp hx with hx | hx
    · obtain ⟨hS, hnot⟩ := Finset.mem_filter.mp hx
      exact Finset.mem_filter.mpr ⟨hS, fun hl => hnot (mem_append_left _ hl)⟩
    · obtain ⟨hxr, hxl⟩ := (hmem x).mp (List.mem_toFinset.mp hx)
      exact Finset.mem_filter.mpr ⟨hr x hxr, hxl⟩
  have hdisj : Disjoint (S.filter (· ∉ l ++ fresh)) fresh.toFinset := by
    refine Finset.disjoint_left.mpr fun x hx hf => ?_
    exact (Finset.mem_filter.mp hx).2 (mem_append_right _ (List.mem_toFinset.mp hf))
  have hcard := Finset.card_le_card hsub
  rw [Finset.card_union_of_disjoint hdisj, toFinset_card_of_nodup hnd] at hcard
  rw [length_append, missing, missing]
  omega

section

variable [DecidableEq α] {grow : List α → α → List α} {next : α → List α} {S : Finset α}
  (hgrow : ∀ l v, l ≠ [] → Grown l (next v) (grow l v)) (hS : ∀ v x, x ∈ next v → x ∈ S)
include hgrow hS

theorem sweep_from {fuel i : ℕ} (hfuel : l.length + missing S l < fuel + i) (hi : i ≤ l.length)
    (hdone : ∀ j v, j < i → l[j]? = some v → ∀ x ∈ next v, x ∈ l) :
    ∃ res, sweep grow fuel i l = some res ∧ (∃ fresh, res = l ++ fresh) ∧ (res.Nodup ↔ l.Nodup) ∧
      (∀ x ∈ res, ∃ s ∈ l, Relation.ReflTransGen (fun a b => b ∈ next a) s x) ∧ ∀ v ∈ res, ∀ x ∈ next v, x ∈ res := by
  induction fuel generalizing i l with
  | zero => omega
  | succ fuel ih =>
    rw [sweep]
    cases hv : l[i]? with
    | none =>
      have hlen := List.getElem?_eq_none_iff.mp hv
      refine ⟨l, rfl, ⟨[], by simp⟩, Iff.rfl, fun x hx => ⟨x, hx, .refl⟩, fun v hvl x hx => ?_⟩
      obtain ⟨j, hj, rfl⟩ := List.mem_iff_getElem.mp hvl
      exact hdone j l[j] (by omega) (List.getElem?_eq_getElem hj) x hx
    | some v =>
      have hvl : v ∈ l := mem_of_getElem? hv
      have hlt : i < l.length := (List.getElem?_eq_some_iff.mp hv).1
      have hg := hgrow l v (ne_nil_of_mem hvl)
      have hmem := hg.mem_iff
      have hroom := missing_grown (fun x hx => hS v x hx) hg
      have hnodup := hg.nodup_iff
      obtain ⟨fresh, hout, -, hfresh⟩ := hg
      have hlen : l.length ≤ (grow l v).length := by
        rw [hout, length_append]
        omega
      obtain ⟨res, heq, ⟨fresh', hres⟩, hnd, hsound, hclosed⟩ := ih (i := i + 1) (l := grow l v) (by omega) (by omega) (by
        intro j w hj hw x hx
        rw [hout, List.getElem?_append_left (by omega)] at hw
        refine (hmem x).mpr ?_
        by_cases hji : j = i
        · rw [hji, hv] at hw
          obtain rfl := Option.some.inj hw
          exact .inr hx
        · exact .inl (hdone j w (by omega) hw x hx))
      refine ⟨res, heq, ⟨fresh ++ fresh', by rw [hres, hout, append_assoc]⟩, hnd.trans hnodup, fun x hx => ?_, hclosed⟩
      obtain ⟨s, hs, hreach⟩ := hsound x hx
      rcases (hmem s).mp hs with hs | hs
      · exact ⟨s, hs, hreach⟩
      · exact ⟨v, hvl, .head hs hreach⟩

theorem sweep_spec {fuel : ℕ} (hfuel : l.length + missing S l < fuel) :
    ∃ res, sweep grow fuel 0 l = some res ∧ (res.Nodup ↔ l.Nodup) ∧
      ∀ x, x ∈ res ↔ ∃ s ∈ l, Relation.ReflTransGen (fun a b => b ∈ next a) s x := by
  obtain ⟨res, heq, ⟨fresh, hres⟩, hnd, hsound, hclosed⟩ := @sweep_from α l _ grow next S hgrow hS fuel 0 (by omega) (by omega)
    (fun j v hj => absurd hj (Nat.not_lt_zero j))
  refine ⟨res, heq, hnd, fun x => ⟨hsound x, ?_⟩⟩
  rintro ⟨s, hs, hreach⟩
  induction hreach with
  | refl =>
    rw [hres]
    exact mem_append_left _ hs
  | tail _ hxy ih => exact hclosed _ ih _ hxy

end

end Sweep
end ReOpenLDAP
