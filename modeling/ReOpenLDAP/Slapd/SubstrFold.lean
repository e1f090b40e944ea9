import ReOpenLDAP.Lib.Squeeze
import ReOpenLDAP.Slapd.SubstrMatch

/-!
# Slapd.SubstrFold

Substrings of directory strings. Value and parts are normalized on their own, each run of spaces to one space.
-/

namespace ReOpenLDAP
namespace Slapd

open Gaps Squeeze List

def SPACE : Nat := 32

/-- The usage bits that `UTF8StringNormalize` tells apart. -/
inductive Usage where
  | equality
  | initial
  | any
  | final
deriving DecidableEq

def toLowerByte (c : Nat) : Nat := if 65 ≤ c ∧ c ≤ 90 then c + 32 else c

/-- `UTF8bvnormalize` on ASCII. -/
def utf8bvnormalize (casefold : Bool) (val : List Nat) : List Nat := if casefold then val.map toLowerByte else val

/-- The loop that collapses spaces: what it writes, and `wasspace` behind it. -/
def collapse : Bool → List Nat → List Nat × Bool
  | wasspace, [] => ([], wasspace)
  | wasspace, c :: val =>
    if c = SPACE then
      let r := collapse true val
      (if wasspace then r.1 else c :: r.1, r.2)
    else
      let r := collapse false val
      (c :: r.1, r.2)

/-- `UTF8StringNormalize` on ASCII -/
def utf8StringNormalize (casefold : Bool) (use : Usage) (val : List Nat) : List Nat :=
  let tmp := utf8bvnormalize casefold val
  -- leading spaces are trimmed
  let wasspace := !(use = .any || use = .final)
  let (nvalue, wasspace) := collapse wasspace tmp
  if nvalue ≠ [] then
    if wasspace && (use ≠ .initial && use ≠ .any) then nvalue.dropLast else nvalue
  else if tmp ≠ [] then [SPACE]
  else []

theorem length_collapse_le (wasspace : Bool) (val : List Nat) : (collapse wasspace val).1.length ≤ val.length := by
  induction val generalizing wasspace with
  | nil => exact Nat.le_refl _
  | cons c val ih =>
    have htrue := ih true
    have hfalse := ih false
    unfold collapse
    split_ifs
    · exact Nat.le_succ_of_le htrue
    · exact Nat.succ_le_succ htrue
    · exact Nat.succ_le_succ hfalse

theorem length_utf8bvnormalize (casefold : Bool) (val : List Nat) : (utf8bvnormalize casefold val).length = val.length := by
  unfold utf8bvnormalize
  split_ifs
  · exact length_map _
  · rfl

theorem length_normalize_le (casefold : Bool) (use : Usage) (val : List Nat) :
    (utf8StringNormalize casefold use val).length ≤ val.length := by
  have hle := length_collapse_le (!(use = .any || use = .final)) (utf8bvnormalize casefold val)
  have hlen := length_utf8bvnormalize casefold val
  unfold utf8StringNormalize
  dsimp only
  split_ifs with h1 h2 h3
  · rw [length_dropLast]
    omega
  · omega
  · rw [← hlen]
    exact List.length_pos_iff.mpr h3
  · exact Nat.zero_le _

def normalizePart (casefold : Bool) (use : Usage) (val : Berval) : Berval :=
  ⟨utf8StringNormalize casefold use val.bytes, (length_normalize_le casefold use val.bytes).trans_lt val.lt⟩

def normalizeAssertion (casefold : Bool) (sub : SubstringsAssertion) : SubstringsAssertion where
  sa_initial := sub.sa_initial.map (normalizePart casefold .initial)
  sa_any := sub.sa_any.map fun parts => parts.map (normalizePart casefold .any)
  sa_final := sub.sa_final.map (normalizePart casefold .final)

/-- `bv_val[i]`. Behind the bytes there is the terminator. -/
def byteAt (part : Berval) (i : Nat) : Nat := part.bytes.getD i 0

def backUp (value left : List Nat) : List Nat := value.drop (value.length - left.length - 1)

/-- The rule from the place behind the initial part. A search round is that of octet strings, with the part as all that is asked. -/
def directoryFrom (value : List Nat) (final : Option Berval) : Bool → List Nat → List Berval → Bool
  | priorspace, left, [] =>
    match final with
    | none => true
    | some final =>
      let left := if priorspace && (final.bytes ≠ [] && byteAt final 0 = SPACE) then backUp value left else left
      if left.length < final.bytes.length then false
      else decide (left.drop (left.length - final.bytes.length) = final.bytes)
  | priorspace, left, part :: parts =>
    let left := if priorspace && (part.bytes ≠ [] && byteAt part 0 = SPACE) then backUp value left else left
    if part.bytes = [] then directoryFrom value final false left parts
    else
      match seekPart part.bytes.length part.bytes left with
      | none => false
      | some left => directoryFrom value final (byteAt part part.bytes.length = SPACE) left parts

/-- `directoryStringSubstringsMatch`: whether `*matchp` is 0. -/
def directoryStringSubstringsMatch (sub : SubstringsAssertion) (value : Berval) : Bool :=
  let left := value.bytes
  match sub.sa_initial with
  | none => directoryFrom value.bytes sub.sa_final false left (sub.sa_any.getD [])
  | some initial =>
    if left.length < initial.bytes.length then false
    else if left.take initial.bytes.length ≠ initial.bytes then false
    else
      directoryFrom value.bytes sub.sa_final (byteAt initial initial.bytes.length = SPACE) (left.drop initial.bytes.length)
        (sub.sa_any.getD [])

section

variable {casefold : Bool} {val : List Nat} {use : Usage}

theorem collapse_space (wasspace : Bool) (val : List Nat) :
    collapse wasspace (SPACE :: val) = (if wasspace then (collapse true val).1 else SPACE :: (collapse true val).1, (collapse true val).2) := by
  rw [collapse, if_pos rfl]

theorem collapse_other {c : Nat} (hc : c ≠ SPACE) (wasspace : Bool) (val : List Nat) :
    collapse wasspace (c :: val) = (c :: (collapse false val).1, (collapse false val).2) := by
  rw [collapse, if_neg hc]

theorem collapse_eq_squeeze (val : List Nat) : (collapse false val).1 = squeeze SPACE val := by
  induction val using squeeze.induct SPACE with
  | case1 => rfl
  | case2 c =>
    by_cases hc : c = SPACE
    · rw [hc, collapse_space]
      rfl
    · rw [collapse_other hc]
      rfl
  | case3 c d val h ih =>
    obtain ⟨rfl, rfl⟩ := h
    rw [squeeze_run, ← ih, collapse_space, collapse_space, collapse_space]
    rfl
  | case4 c d val h ih =>
    rw [squeeze_cons h, ← ih]
    by_cases hc : c = SPACE
    · have hd : d ≠ SPACE := fun hd => h ⟨hc, hd⟩
      rw [hc, collapse_space, collapse_other hd, collapse_other hd]
      rfl
    · rw [collapse_other hc]

theorem collapse_of_head (h : val.head? ≠ some SPACE) (hne : val ≠ []) (wasspace : Bool) :
    collapse wasspace val = collapse false val := by
  obtain ⟨c, val, rfl⟩ := exists_cons_of_ne_nil hne
  have hc : c ≠ SPACE := fun hc => h (congrArg some hc)
  rw [collapse_other hc, collapse_other hc]

theorem collapse_last (wasspace : Bool) (hne : val ≠ []) : (collapse wasspace val).2 = decide (val.getLast? = some SPACE) := by
  induction val generalizing wasspace with
  | nil => exact absurd rfl hne
  | cons c val ih =>
    cases val with
    | nil =>
      by_cases hc : c = SPACE
      · rw [hc, collapse_space]
        rfl
      · rw [collapse_other hc]
        simpa [collapse] using hc
    | cons d val =>
      rw [List.getLast?_cons_cons]
      by_cases hc : c = SPACE
      · rw [hc, collapse_space]
        exact ih true (cons_ne_nil d val)
      · rw [collapse_other hc]
        exact ih false (cons_ne_nil d val)

theorem normalize_eq (hhead : use = .equality ∨ use = .initial → (utf8bvnormalize casefold val).head? ≠ some SPACE)
    (hlast : use = .equality ∨ use = .final → (utf8bvnormalize casefold val).getLast? ≠ some SPACE) :
    utf8StringNormalize casefold use val = squeeze SPACE (utf8bvnormalize casefold val) := by
  unfold utf8StringNormalize
  generalize utf8bvnormalize casefold val = tmp at hhead hlast ⊢
  by_cases hne : tmp = []
  · subst hne
    rfl
  have hcollapse : collapse (!(use = .any || use = .final)) tmp = collapse false tmp := by
    cases use with
    | equality => exact collapse_of_head (hhead (.inl rfl)) hne _
    | initial => exact collapse_of_head (hhead (.inr rfl)) hne _
    | any => rfl
    | final => rfl
  have hsqueeze : (collapse false tmp).1 ≠ [] := by
    rw [collapse_eq_squeeze]
    exact fun h => hne (squeeze_eq_nil.mp h)
  have htrim : ((collapse false tmp).2 && (use ≠ .initial && use ≠ .any)) = false := by
    rw [collapse_last false hne]
    cases use with
    | equality => simpa using hlast (.inl rfl)
    | initial => simp
    | any => simp
    | final => simpa using hlast (.inr rfl)
  dsimp only
  rw [hcollapse, if_pos hsqueeze, htrim, ← collapse_eq_squeeze]
  rfl

end

/-! ## The rule without its exception -/

section

variable {value left : List Nat} {final : Option Berval}

theorem byteAt_length (part : Berval) : byteAt part part.bytes.length = 0 := by simp [byteAt]

theorem directoryFrom_fits (parts : List Berval) (left : List Nat) :
    directoryFrom value final false left parts = true ↔ Fits (bytesOf final) (parts.map Berval.bytes) left := by
  induction parts generalizing left with
  | nil =>
    cases final with
    | none => exact iff_of_true rfl (nil_suffix)
    | some final =>
      rw [directoryFrom, Bool.false_and, if_neg Bool.false_ne_true]
      split_ifs with hlen
      · refine iff_of_false (by simp) fun h => ?_
        have := List.IsSuffix.length_le h
        rw [bytesOf] at this
        omega
      · rw [decide_eq_true_eq, eq_comm]
        exact List.suffix_iff_eq_drop.symm
  | cons part parts ih =>
    rw [directoryFrom, Bool.false_and, if_neg Bool.false_ne_true, map_cons]
    by_cases hnil : part.bytes = []
    · rw [if_pos hnil, hnil, fits_nil_cons, ih]
    rw [if_neg hnil, fits_cons_iff]
    have hseek := @seekPart_seeks part.bytes.length _ hnil left
    cases hres : seekPart part.bytes.length part.bytes left with
    | none =>
      rw [hres] at hseek
      refine iff_of_false (by simp) ?_
      rintro ⟨rest, hafter, -⟩
      have := hseek rest hafter
      omega
    | some rest =>
      rw [hres] at hseek
      have hbehind : decide (byteAt part part.bytes.length = SPACE) = false := by
        rw [byteAt_length]
        rfl
      dsimp only
      rw [hbehind, ih]
      constructor
      · exact fun h => ⟨rest, hseek, h⟩
      · rintro ⟨rest', hafter, h⟩
        obtain rfl := Option.some.inj (hseek.symm.trans hafter)
        exact h

theorem directory_match_written (sub : SubstringsAssertion) (value : Berval) : directoryStringSubstringsMatch sub value = true ↔
    Written (bytesOf sub.sa_initial) ((sub.sa_any.getD []).map Berval.bytes) (bytesOf sub.sa_final) value.bytes := by
  rw [written_iff]
  unfold directoryStringSubstringsMatch
  cases sub.sa_initial with
  | none =>
    dsimp only
    rw [directoryFrom_fits]
    constructor
    · exact fun h => ⟨value.bytes, rfl, h⟩
    · rintro ⟨left, h, hfits⟩
      rw [h]
      exact hfits
  | some initial =>
    have hbehind : decide (byteAt initial initial.bytes.length = SPACE) = false := by
      rw [byteAt_length]
      rfl
    dsimp only
    rw [hbehind, show bytesOf (some initial) = initial.bytes from rfl]
    by_cases htake : initial.bytes <+: value.bytes
    · rw [if_neg (not_lt.mpr htake.length_le), if_neg (not_not.mpr (List.prefix_iff_eq_take.mp htake).symm), directoryFrom_fits]
      obtain ⟨left, hleft⟩ := htake
      rw [← hleft, drop_left]
      constructor
      · exact fun h => ⟨left, rfl, h⟩
      · rintro ⟨left', h, hfits⟩
        rw [append_cancel_left h]
        exact hfits
    · refine iff_of_false ?_ ?_
      · split_ifs with h1 h2
        · simp
        · simp
        · exact absurd (List.prefix_iff_eq_take.mpr (not_not.mp h2).symm) htake
      · rintro ⟨left, h, -⟩
        exact htake ⟨left, h.symm⟩

end

def SpacesAlike (q p : List Nat) : Prop := squeeze SPACE q = squeeze SPACE p

/-- The value is the initial part, then the others with gaps, up to the lengths of runs of spaces; and no run is cut. -/
def CutsApart (initial : List Nat) (anys : List (List Nat)) (final value : List Nat) : Prop :=
  ∃ i pieces, SpacesAlike i initial ∧ Pieces SpacesAlike final anys pieces ∧ value = (i :: pieces).flatten ∧ AllApart SPACE (i :: pieces)

section

variable {initial final value : List Nat} {anys : List (List Nat)}

theorem written_squeeze : Written (squeeze SPACE initial) (anys.map (squeeze SPACE)) (squeeze SPACE final) (squeeze SPACE value) ↔
    CutsApart initial anys final value := by
  rw [written_iff]
  constructor
  · rintro ⟨left, h, hfits⟩
    obtain ⟨qs, hqs, rfl⟩ := fits_iff_pieces.mp hfits
    obtain ⟨ps, rfl, hmap, hapart⟩ := @exists_pieces _ _ SPACE value (squeeze SPACE initial :: qs) (cons_ne_nil _ _) h
    obtain ⟨i, pieces, rfl, hi, rfl⟩ := List.map_eq_cons_iff.mp hmap
    exact ⟨i, pieces, hi, pieces_map.mp hqs, rfl, hapart⟩
  · rintro ⟨i, pieces, hi, hpieces, rfl, hapart⟩
    refine ⟨(pieces.map (squeeze SPACE)).flatten, ?_, fits_iff_pieces.mpr ⟨_, pieces_map.mpr hpieces, rfl⟩⟩
    rw [squeeze_flatten hapart, map_cons, flatten_cons, hi]

theorem Written.ends (h : Written initial anys final value) (hhead : value.head? ≠ some SPACE) (hlast : value.getLast? ≠ some SPACE) :
    initial.head? ≠ some SPACE ∧ final.getLast? ≠ some SPACE := by
  obtain ⟨x, xs, -, rfl⟩ := h
  constructor
  · intro hi
    rw [List.head?_append, hi] at hhead
    exact hhead rfl
  · intro hf
    rw [← append_assoc, ← append_assoc, List.getLast?_append, hf] at hlast
    exact hlast rfl

end

section

variable {casefold : Bool}

theorem toLowerByte_space {c : Nat} : toLowerByte c = SPACE ↔ c = SPACE := by
  unfold toLowerByte SPACE
  split_ifs <;> omega

theorem utf8bvnormalize_end {val : List Nat} {octet : List Nat → Option Nat} (hmap : ∀ f l, octet (l.map f) = (octet l).map f)
    (h : octet val ≠ some SPACE) : octet (utf8bvnormalize casefold val) ≠ some SPACE := by
  unfold utf8bvnormalize
  split_ifs
  · intro hs
    rw [hmap] at hs
    obtain ⟨c, hc, hspace⟩ := Option.map_eq_some_iff.mp hs
    exact h (hc.trans (congrArg some (toLowerByte_space.mp hspace)))
  · exact h

theorem utf8bvnormalize_nil : utf8bvnormalize casefold [] = [] := by cases casefold <;> rfl

def caseOf (casefold : Bool) (part : Option Berval) : List Nat := utf8bvnormalize casefold (bytesOf part)

/-- Parts that match a value without spaces at its ends, before and after all is normalized. -/
theorem directory_substrings_iff {v : Berval} {sub : SubstringsAssertion} (hhead : v.bytes.head? ≠ some SPACE)
    (hlast : v.bytes.getLast? ≠ some SPACE)
    (hmatch : Written (caseOf casefold sub.sa_initial) ((sub.sa_any.getD []).map fun part => utf8bvnormalize casefold part.bytes)
      (caseOf casefold sub.sa_final) (utf8bvnormalize casefold v.bytes)) :
    directoryStringSubstringsMatch (normalizeAssertion casefold sub) (normalizePart casefold .equality v) = true ↔
      CutsApart (caseOf casefold sub.sa_initial) ((sub.sa_any.getD []).map fun part => utf8bvnormalize casefold part.bytes)
        (caseOf casefold sub.sa_final) (utf8bvnormalize casefold v.bytes) := by
  have hhead' := @utf8bvnormalize_end casefold _ List.head? (fun _ _ => List.head?_map) hhead
  have hlast' := @utf8bvnormalize_end casefold _ List.getLast? (fun _ _ => List.getLast?_map) hlast
  obtain ⟨hi, hf⟩ := hmatch.ends hhead' hlast'
  have hinitial : bytesOf (normalizeAssertion casefold sub).sa_initial = squeeze SPACE (caseOf casefold sub.sa_initial) := by
    unfold caseOf normalizeAssertion at *
    cases hsub : sub.sa_initial with
    | none => exact (congrArg (squeeze SPACE) utf8bvnormalize_nil).symm
    | some initial =>
      rw [hsub] at hi
      exact normalize_eq (fun _ => hi) (by simp)
  have hfinal : bytesOf (normalizeAssertion casefold sub).sa_final = squeeze SPACE (caseOf casefold sub.sa_final) := by
    unfold caseOf normalizeAssertion at *
    cases hsub : sub.sa_final with
    | none => exact (congrArg (squeeze SPACE) utf8bvnormalize_nil).symm
    | some final =>
      rw [hsub] at hf
      exact normalize_eq (by simp) (fun _ => hf)
  have hany : ((normalizeAssertion casefold sub).sa_any.getD []).map Berval.bytes =
      ((sub.sa_any.getD []).map fun part => utf8bvnormalize casefold part.bytes).map (squeeze SPACE) := by
    unfold normalizeAssertion
    cases sub.sa_any with
    | none => rfl
    | some parts =>
      simp only [Option.map_some, Option.getD_some, List.map_map]
      exact map_congr_left fun part _ => normalize_eq (by simp) (by simp)
  have hvalue : (normalizePart casefold .equality v).bytes = squeeze SPACE (utf8bvnormalize casefold v.bytes) :=
    normalize_eq (fun _ => hhead') (fun _ => hlast')
  rw [directory_match_written, hinitial, hfinal, hany, hvalue, written_squeeze]

/-- `Ab  c` with `a*c`. -/
theorem directory_substrings_Ab_c :
    directoryStringSubstringsMatch (normalizeAssertion true ⟨some ⟨[97], by decide⟩, none, some ⟨[99], by decide⟩⟩)
        (normalizePart true .equality ⟨[65, 98, 32, 32, 99], by decide⟩) = true ↔
      CutsApart [97] [] [99] [97, 98, 32, 32, 99] :=
  @directory_substrings_iff true ⟨[65, 98, 32, 32, 99], by decide⟩ ⟨some ⟨[97], by decide⟩, none, some ⟨[99], by decide⟩⟩
    (by decide) (by decide) ⟨[98, 32, 32], [], rfl, rfl⟩

/-- `a  b` with `a * b`: the one space that is left should serve both parts. -/
theorem directory_shared_space_lost :
    Written [97, 32] [] [32, 98] [97, 32, 32, 98] ∧
      directoryStringSubstringsMatch (normalizeAssertion true ⟨some ⟨[97, 32], by decide⟩, none, some ⟨[32, 98], by decide⟩⟩)
        (normalizePart true .equality ⟨[97, 32, 32, 98], by decide⟩) = false :=
  ⟨⟨[], [], rfl, rfl⟩, by decide⟩

end

end Slapd
end ReOpenLDAP
