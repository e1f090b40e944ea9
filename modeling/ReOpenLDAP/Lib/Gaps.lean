import Mathlib.Algebra.Order.Ring.Int
import Mathlib.Data.List.Infix

/-!
# Lib.Gaps

Parts that stand one behind the other in a list, with gaps between them and a given end.
-/

namespace ReOpenLDAP
namespace Gaps

open List

variable {α : Type*}

def Fits (final : List α) : List (List α) → List α → Prop
  | [], left => final <:+ left
  | p :: ps, left => ∃ x rest, left = x ++ (p ++ rest) ∧ Fits final ps rest

section

variable {final left rest p : List α} {ps : List (List α)}

theorem fits_append (y : List α) (h : Fits final ps left) : Fits final ps (y ++ left) := by
  cases ps with
  | nil => exact List.IsSuffix.trans h (suffix_append y left)
  | cons p ps =>
    obtain ⟨x, rest, rfl, h⟩ := h
    exact ⟨y ++ x, rest, (append_assoc ..).symm, h⟩

theorem fits_length (h : Fits final ps left) : (ps.map List.length).sum + final.length ≤ left.length := by
  induction ps generalizing left with
  | nil => simpa using List.IsSuffix.length_le h
  | cons p ps ih =>
    obtain ⟨x, rest, rfl, h⟩ := h
    have := ih h
    simp only [map_cons, sum_cons, length_append]
    omega

theorem fits_suffix (h : Fits final ps left) : final <:+ left := by
  induction ps generalizing left with
  | nil => exact h
  | cons p ps ih =>
    obtain ⟨x, rest, rfl, h⟩ := h
    rw [← append_assoc]
    exact (ih h).trans (suffix_append _ rest)

theorem fits_nil_cons (left : List α) : Fits final ([] :: ps) left ↔ Fits final ps left := by
  constructor
  · rintro ⟨x, rest, rfl, h⟩
    exact fits_append x h
  · exact fun h => ⟨[], left, rfl, h⟩

theorem fits_iff_gaps : Fits final ps left ↔
    ∃ x xs, xs.length = ps.length ∧ left = x ++ ((List.zipWith (· ++ ·) ps xs).flatten ++ final) := by
  induction ps generalizing left with
  | nil =>
    constructor
    · rintro ⟨x, rfl⟩
      exact ⟨x, [], rfl, rfl⟩
    · rintro ⟨x, xs, -, rfl⟩
      rw [zipWith_nil_left]
      exact suffix_append x final
  | cons p ps ih =>
    constructor
    · rintro ⟨x, rest, rfl, h⟩
      obtain ⟨y, ys, hlen, rfl⟩ := ih.mp h
      exact ⟨x, y :: ys, by rw [length_cons, length_cons, hlen], by simp⟩
    · rintro ⟨x, xs, hlen, rfl⟩
      obtain ⟨y, ys, rfl⟩ : ∃ y ys, xs = y :: ys := exists_cons_of_length_eq_add_one hlen
      refine ⟨x, y ++ ((List.zipWith (· ++ ·) ps ys).flatten ++ final), by simp, ih.mpr ⟨y, ys, Nat.succ.inj hlen, rfl⟩⟩

/-- Gaps, each with a part or the end behind it, which `R` relates to what is asked. -/
def Pieces {β : Type*} (R : List α → β → Prop) (final : β) : List β → List (List α) → Prop
  | [], pieces => ∃ x f, pieces = [x, f] ∧ R f final
  | p :: ps, pieces => ∃ x q rest, pieces = x :: q :: rest ∧ R q p ∧ Pieces R final ps rest

theorem fits_iff_pieces : Fits final ps left ↔ ∃ pieces, Pieces Eq final ps pieces ∧ left = pieces.flatten := by
  induction ps generalizing left with
  | nil =>
    constructor
    · rintro ⟨x, rfl⟩
      exact ⟨[x, final], ⟨x, final, rfl, rfl⟩, by simp⟩
    · rintro ⟨_, ⟨x, f, rfl, rfl⟩, rfl⟩
      exact ⟨x, by simp⟩
  | cons p ps ih =>
    constructor
    · rintro ⟨x, rest, rfl, h⟩
      obtain ⟨pieces, hpieces, rfl⟩ := ih.mp h
      exact ⟨x :: p :: pieces, ⟨x, p, pieces, rfl, rfl, hpieces⟩, rfl⟩
    · rintro ⟨_, ⟨x, q, rest, rfl, rfl, hpieces⟩, rfl⟩
      exact ⟨x, rest.flatten, rfl, ih.mpr ⟨rest, hpieces, rfl⟩⟩

theorem pieces_map {f : List α → List α} {g : List α → List α} {pieces : List (List α)} :
    Pieces Eq (g final) (ps.map g) (pieces.map f) ↔ Pieces (fun q p => f q = g p) final ps pieces := by
  induction ps generalizing pieces with
  | nil =>
    constructor
    · rintro ⟨x, e, h, rfl⟩
      obtain ⟨x', tail, rfl, -, htail⟩ := List.map_eq_cons_iff.mp h
      obtain ⟨e', rest, rfl, he, hrest⟩ := List.map_eq_cons_iff.mp htail
      obtain rfl := List.map_eq_nil_iff.mp hrest
      exact ⟨x', e', rfl, he⟩
    · rintro ⟨x, e, rfl, h⟩
      exact ⟨f x, f e, rfl, h⟩
  | cons p ps ih =>
    constructor
    · rintro ⟨x, q, rest, h, rfl, hrest⟩
      obtain ⟨x', tail, rfl, -, htail⟩ := List.map_eq_cons_iff.mp h
      obtain ⟨q', rest', rfl, hq, rfl⟩ := List.map_eq_cons_iff.mp htail
      exact ⟨x', q', rest', rfl, hq, ih.mp hrest⟩
    · rintro ⟨x, q, rest, rfl, hq, hrest⟩
      exact ⟨f x, f q, rest.map f, rfl, hq, ih.mpr hrest⟩

theorem fits_append_final (front : List α) : Fits final ps (front ++ final) ↔ Fits [] ps front := by
  rw [fits_iff_gaps, fits_iff_gaps]
  refine exists₂_congr fun x xs => and_congr_right fun _ => ?_
  rw [List.append_nil, ← append_assoc]
  exact append_left_inj final

end

variable [DecidableEq α]

def after (p : List α) : List α → Option (List α)
  | [] => if p = [] then some [] else none
  | c :: left => if p <+: c :: left then some ((c :: left).drop p.length) else after p left

section

variable {final left rest p : List α} {ps : List (List α)}

theorem after_cons (c : α) : after p (c :: left) = if p <+: c :: left then some ((c :: left).drop p.length) else after p left := rfl

theorem after_start (h : p <+: left) : after p left = some (left.drop p.length) := by
  cases left with
  | nil =>
    rw [List.prefix_nil.mp h]
    rfl
  | cons c left => rw [after_cons, if_pos h]

theorem after_cons_of_not {c : α} (h : ¬ p <+: c :: left) : after p (c :: left) = after p left := by rw [after_cons, if_neg h]

theorem after_some (h : after p left = some rest) : ∃ x, left = x ++ (p ++ rest) := by
  induction left with
  | nil =>
    rw [after] at h
    split_ifs at h with hp
    obtain rfl := Option.some.inj h
    exact ⟨[], by rw [hp]; rfl⟩
  | cons c left ih =>
    by_cases hp : p <+: c :: left
    · rw [after_start hp] at h
      obtain rfl := Option.some.inj h
      exact ⟨[], (List.prefix_iff_eq_append.mp hp).symm⟩
    · rw [after_cons_of_not hp] at h
      obtain ⟨x, hx⟩ := ih h
      exact ⟨c :: x, by rw [hx]; rfl⟩

theorem after_append (x rest : List α) : ∃ y, after p (x ++ (p ++ rest)) = some (y ++ rest) := by
  induction x with
  | nil => exact ⟨[], by rw [List.nil_append, after_start (prefix_append p rest), drop_left]; rfl⟩
  | cons c x ih =>
    by_cases hp : p <+: c :: x ++ (p ++ rest)
    · obtain ⟨t, ht⟩ := hp
      have hlen : rest.length ≤ t.length := by
        have := congrArg List.length ht
        simp only [length_append, length_cons] at this
        omega
      have hsuffix : rest <:+ t := by
        refine suffix_of_suffix_length_le ?_ (suffix_append p t) hlen
        rw [ht, ← append_assoc]
        exact suffix_append _ rest
      obtain ⟨y, rfl⟩ := hsuffix
      refine ⟨y, ?_⟩
      rw [← ht, after_start (prefix_append p _), drop_left]
    · obtain ⟨y, hy⟩ := ih
      exact ⟨y, (after_cons_of_not hp).trans hy⟩

theorem fits_cons_iff : Fits final (p :: ps) left ↔ ∃ rest, after p left = some rest ∧ Fits final ps rest := by
  constructor
  · rintro ⟨x, rest, rfl, h⟩
    obtain ⟨y, hy⟩ := @after_append _ _ p x rest
    exact ⟨y ++ rest, hy, fits_append y h⟩
  · rintro ⟨rest, hafter, h⟩
    obtain ⟨x, rfl⟩ := after_some hafter
    exact ⟨x, rest, rfl, h⟩

theorem after_dropWhile (hp : p ≠ []) (left : List α) :
    after p left = after p (left.dropWhile fun c => ¬ p.head? = some c) := by
  induction left with
  | nil => rfl
  | cons c left ih =>
    rw [dropWhile_cons]
    split
    · rename_i hc
      have hnot : ¬ p <+: c :: left := by
        rintro ⟨t, ht⟩
        obtain ⟨d, q, rfl⟩ := exists_cons_of_ne_nil hp
        obtain ⟨rfl, -⟩ := List.cons.inj ht
        simp at hc
      rw [after_cons_of_not hnot, ih]
    · rfl

end

end Gaps
end ReOpenLDAP
