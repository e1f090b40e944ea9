import ReOpenLDAP.Lib.Gaps
import ReOpenLDAP.Slapd.SubstrIndex

/-!
# Slapd.SubstrMatch

The matching rule for substrings of octet strings: a value matches if it is the parts in turn, with anything between them.
-/

namespace ReOpenLDAP
namespace Slapd

open Gaps

section

variable {inlen : Nat} {part left rest : List Nat}

theorem seekPart_eq (hlen : ¬ left.length < inlen) : seekPart inlen part left =
    match left.dropWhile (fun b => ¬ part.head? = some b) with
    | [] => none
    | b :: rest =>
      if (b :: rest).length < part.length then none
      else if (b :: rest).take part.length = part then some ((b :: rest).drop part.length)
      else seekPart inlen part rest := by
  rw [seekPart, if_neg hlen]
  split
  · rename_i h
    rw [h]
  · rename_i h
    rw [h]

/-- The first place of the part is found, or there is less than `inlen` from there on. -/
def Seeks (inlen : Nat) (part left : List Nat) : Option (List Nat) → Prop
  | some rest => after part left = some rest
  | none => ∀ rest, after part left = some rest → part.length + rest.length < inlen

theorem seekPart_seeks (hpart : part ≠ []) (left : List Nat) : Seeks inlen part left (seekPart inlen part left) := by
  induction left using seekPart.induct inlen part with
  | case1 left hlen =>
    rw [seekPart, if_pos hlen]
    intro rest hafter
    obtain ⟨x, rfl⟩ := after_some hafter
    simp only [List.length_append] at hlen
    omega
  | case2 left hlen hnil =>
    rw [seekPart_eq hlen, hnil]
    intro rest hafter
    rw [after_dropWhile hpart, hnil, after, if_neg hpart] at hafter
    cases hafter
  | case3 left hlen b tail hcons hshort =>
    rw [seekPart_eq hlen, hcons]
    dsimp only
    rw [if_pos hshort]
    intro rest hafter
    rw [after_dropWhile hpart, hcons] at hafter
    obtain ⟨x, hx⟩ := after_some hafter
    rw [hx] at hshort
    simp only [List.length_append] at hshort
    omega
  | case4 left hlen b tail hcons hshort htake =>
    rw [seekPart_eq hlen, hcons]
    dsimp only
    rw [if_neg hshort, if_pos htake]
    change after part left = _
    rw [after_dropWhile hpart, hcons]
    exact after_start (List.prefix_iff_eq_take.mpr htake.symm)
  | case5 left hlen b tail hcons hshort htake ih =>
    have hnot : ¬ part <+: b :: tail := fun h => htake (List.prefix_iff_eq_take.mp h).symm
    have hafter : after part left = after part tail := by rw [after_dropWhile hpart, hcons, after_cons_of_not hnot]
    rw [seekPart_eq hlen, hcons]
    dsimp only
    rw [if_neg hshort, if_neg htake]
    unfold Seeks at ih ⊢
    rw [hafter]
    exact ih

theorem fits_room {final : List Nat} {parts : List Berval} (h : Fits final (parts.map Berval.bytes) left) :
    (parts.map fun part => part.bytes.length).sum + final.length ≤ left.length := by
  have hle := fits_length h
  rw [List.map_map] at hle
  exact hle

theorem matchAny_fits (parts : List Berval) (left : List Nat) :
    matchAny (parts.map fun part => part.bytes.length).sum left parts = true ↔ Fits [] (parts.map Berval.bytes) left := by
  induction parts generalizing left with
  | nil => exact iff_of_true rfl (List.nil_suffix)
  | cons part parts ih =>
    rw [List.map_cons, List.sum_cons, matchAny]
    by_cases hlen : left.length < part.bytes.length + (parts.map fun part => part.bytes.length).sum
    · rw [if_pos hlen]
      refine iff_of_false (by simp) fun h => ?_
      have hle := @fits_room left [] (part :: parts) h
      rw [List.map_cons, List.sum_cons] at hle
      omega
    rw [if_neg hlen]
    by_cases hnil : part.bytes = []
    · rw [if_pos hnil, List.map_cons, hnil, List.length_nil, Nat.zero_add, ih]
      exact (fits_nil_cons left).symm
    rw [if_neg hnil, List.map_cons, fits_cons_iff]
    have hseek := @seekPart_seeks (part.bytes.length + (parts.map fun part => part.bytes.length).sum) _ hnil left
    cases hres : seekPart (part.bytes.length + (parts.map fun part => part.bytes.length).sum) part.bytes left with
    | none =>
      rw [hres] at hseek
      refine iff_of_false (by simp) ?_
      rintro ⟨rest, hafter, hfits⟩
      have hroom := hseek rest hafter
      have hle := fits_room hfits
      omega
    | some rest =>
      rw [hres] at hseek
      dsimp only
      rw [Nat.add_sub_cancel_left, ih]
      constructor
      · exact fun h => ⟨rest, hseek, h⟩
      · rintro ⟨rest', hafter, h⟩
        obtain rfl := Option.some.inj (hseek.symm.trans hafter)
        exact h

end

def bytesOf : Option Berval → List Nat
  | none => []
  | some part => part.bytes

/-- `initial x anys₁ x₁ … anysₙ xₙ final` -/
def Written (initial : List Nat) (anys : List (List Nat)) (final value : List Nat) : Prop :=
  ∃ x xs, xs.length = anys.length ∧ value = initial ++ (x ++ ((List.zipWith (· ++ ·) anys xs).flatten ++ final))

theorem written_iff {initial final value : List Nat} {anys : List (List Nat)} :
    Written initial anys final value ↔ ∃ left, value = initial ++ left ∧ Fits final anys left := by
  constructor
  · rintro ⟨x, xs, hlen, rfl⟩
    exact ⟨_, rfl, fits_iff_gaps.mpr ⟨x, xs, hlen, rfl⟩⟩
  · rintro ⟨left, rfl, h⟩
    obtain ⟨x, xs, hlen, rfl⟩ := fits_iff_gaps.mp h
    exact ⟨x, xs, hlen, rfl⟩

theorem matchFinal_fits {sub : SubstringsAssertion} (left : List Nat) :
    matchFinal sub (((sub.sa_any.getD []).map fun part => part.bytes.length).sum + lengthOf sub.sa_final) left = true ↔
      Fits (bytesOf sub.sa_final) ((sub.sa_any.getD []).map Berval.bytes) left := by
  unfold matchFinal
  cases sub.sa_final with
  | none => exact matchAny_fits ..
  | some final =>
    rw [lengthOf, bytesOf]
    dsimp only
    by_cases hlen : left.length < ((sub.sa_any.getD []).map fun part => part.bytes.length).sum + final.bytes.length
    · rw [if_pos hlen]
      refine iff_of_false (by simp) fun h => ?_
      have hle := fits_room h
      omega
    rw [if_neg hlen]
    by_cases hdrop : left.drop (left.length - final.bytes.length) = final.bytes
    · rw [if_neg (not_not.mpr hdrop), Nat.add_sub_cancel, matchAny_fits]
      have hsplit := List.take_append_drop (left.length - final.bytes.length) left
      rw [hdrop] at hsplit
      rw [← fits_append_final, hsplit]
    · rw [if_pos hdrop]
      exact iff_of_false (by simp) fun h => hdrop (List.suffix_iff_eq_drop.mp (fits_suffix h)).symm

theorem octet_substrings_match_iff (sub : SubstringsAssertion) (value : Berval) :
    octetStringSubstringsMatch sub value = true ↔
      Written (bytesOf sub.sa_initial) ((sub.sa_any.getD []).map Berval.bytes) (bytesOf sub.sa_final) value.bytes := by
  rw [written_iff]
  unfold octetStringSubstringsMatch
  cases sub.sa_initial with
  | none =>
    dsimp only
    rw [show lengthOf none = 0 from rfl, Nat.zero_add, matchFinal_fits]
    constructor
    · exact fun h => ⟨value.bytes, rfl, h⟩
    · rintro ⟨left, h, hfits⟩
      rw [h]
      exact hfits
  | some initial =>
    dsimp only
    rw [show lengthOf (some initial) = initial.bytes.length from rfl, show bytesOf (some initial) = initial.bytes from rfl, Nat.add_assoc]
    by_cases hlen : value.bytes.length <
      initial.bytes.length + (((sub.sa_any.getD []).map fun part => part.bytes.length).sum + lengthOf sub.sa_final)
    · rw [if_pos hlen]
      refine iff_of_false (by simp) ?_
      rintro ⟨left, h, hfits⟩
      have hle := fits_room hfits
      have hfinal : (bytesOf sub.sa_final).length = lengthOf sub.sa_final := by cases sub.sa_final <;> rfl
      rw [h, List.length_append] at hlen
      omega
    rw [if_neg hlen, Nat.add_sub_cancel_left]
    by_cases htake : value.bytes.take initial.bytes.length = initial.bytes
    · rw [if_neg (not_not.mpr htake), matchFinal_fits]
      have hsplit := List.take_append_drop initial.bytes.length value.bytes
      rw [htake] at hsplit
      constructor
      · exact fun h => ⟨_, hsplit.symm, h⟩
      · rintro ⟨left, h, hfits⟩
        rw [h, List.drop_left]
        exact hfits
    · rw [if_pos htake]
      refine iff_of_false (by simp) ?_
      rintro ⟨left, h, -⟩
      exact htake (by rw [h, List.take_left])

end Slapd
end ReOpenLDAP
