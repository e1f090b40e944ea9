import ReOpenLDAP.Slapd.OrderedValues

/-!
# Slapd.OrderedNumbers

When X-ORDERED values are numbered, and what the sort makes of them.
-/

namespace ReOpenLDAP
namespace Slapd
namespace AttrVals

open Decimal List

section

variable {c : Char} {ds s rest : List Char}

theorem digitValue_digit (h : c.isDigit = true) : digitValue c = value c := if_pos h

theorem isDigitOf_ten : isDigitOf 10 c = c.isDigit := by
  unfold isDigitOf
  cases h : c.isDigit with
  | true => simpa [digitValue_digit h] using value_lt h
  | false =>
    unfold digitValue
    rw [h, if_neg (by decide)]
    split_ifs <;> simp

theorem detectBase_ten (h : s.head? ≠ some '0') : detectBase s = (10, s) := by
  unfold detectBase
  split
  · exact absurd rfl h
  · exact absurd rfl h
  · rfl

theorem detectBase_zero (hx : c ≠ 'x') (hX : c ≠ 'X') : detectBase ('0' :: c :: s) = (8, '0' :: c :: s) := by
  cases s with
  | nil => rfl
  | cons d s =>
    rw [detectBase, if_neg]
    rintro ⟨h | h, -⟩
    · exact hx h
    · exact hX h

theorem digits_split (hds : Digits ds) :
    (ds ++ '}' :: rest).takeWhile (isDigitOf 10) = ds ∧ (ds ++ '}' :: rest).dropWhile (isDigitOf 10) = '}' :: rest := by
  have hall : ∀ c ∈ ds, isDigitOf 10 c = true := fun c hc => isDigitOf_ten.trans (hds c hc)
  rw [takeWhile_append_of_pos hall, dropWhile_append_of_pos hall]
  simp [isDigitOf_ten]

theorem foldl_digits (hds : Digits ds) : ds.foldl (fun r c => r * 10 + digitValue c) 0 = number ds := by
  unfold number
  generalize 0 = r
  induction ds generalizing r with
  | nil => rfl
  | cons c ds ih =>
    obtain ⟨hc, hds⟩ := List.forall_mem_cons.mp hds
    rw [foldl_cons, foldl_cons, digitValue_digit hc, ih hds]

theorem strtol_canonical (h : Canonical ds) : strtol (ds ++ '}' :: rest) = (clampLong (number ds), '}' :: rest) := by
  obtain ⟨c, ds', rfl⟩ := exists_cons_of_ne_nil h.ne_nil
  have hc : c.isDigit = true := h.digits c mem_cons_self
  have hspace : (c :: ds' ++ '}' :: rest).dropWhile isspace = c :: ds' ++ '}' :: rest := by
    rw [cons_append, dropWhile_cons_of_neg (by simp [isspace_of_isDigit hc])]
  have hminus : (c :: ds' ++ '}' :: rest).head? ≠ some '-' := by
    rintro ⟨⟩
    cases hc
  have hplus : (c :: ds' ++ '}' :: rest).head? ≠ some '+' := by
    rintro ⟨⟩
    cases hc
  have hread : ∀ base, detectBase (c :: ds' ++ '}' :: rest) = (base, c :: ds' ++ '}' :: rest) →
      (c :: ds' ++ '}' :: rest).takeWhile (isDigitOf base) = c :: ds' →
      (c :: ds' ++ '}' :: rest).dropWhile (isDigitOf base) = '}' :: rest →
      (c :: ds').foldl (fun r c => r * base + digitValue c) 0 = number (c :: ds') →
      strtol (c :: ds' ++ '}' :: rest) = (clampLong (number (c :: ds')), '}' :: rest) := by
    intro base hbase htake hdrop hnum
    unfold strtol
    simp only [hspace, hminus, hplus, or_self, if_false, hbase, htake, hdrop, hnum, reduceCtorEq]
  rcases h.no_zero with hzero | hhead
  · obtain ⟨rfl, rfl⟩ := List.cons.inj hzero
    exact hread 8 (detectBase_zero (by decide) (by decide)) rfl rfl rfl
  · exact hread 10 (detectBase_ten hhead) (digits_split h.digits).1 (digits_split h.digits).2 (foldl_digits h.digits)

theorem clampLong_small {i : ℕ} (hi : i < 2 ^ 31) : toInt (clampLong i) = i := by
  have hclamp : clampLong i = i := by
    unfold clampLong LONG_MIN LONG_MAX
    omega
  rw [hclamp, toInt, Int.bmod_eq_of_le] <;> omega

theorem tail_indexText (i : ℕ) (s : List Char) : (indexText i ++ s).tail = Nat.toDigits 10 i ++ '}' :: s := by
  rw [indexText, cons_append, tail_cons, append_assoc]
  rfl

theorem strtol_indexText (i : ℕ) (s : List Char) : strtol (indexText i ++ s).tail = (clampLong i, '}' :: s) := by
  rw [tail_indexText, strtol_canonical (canonical_toDigits i), number_toDigits]

theorem parseIndex_indexText {i : ℕ} (hi : i < 2 ^ 31) (s : List Char) : parseIndex (indexText i ++ s) = some (i : ℤ) := by
  rw [parseIndex, strtol_indexText]
  exact congrArg some (clampLong_small hi)

end

theorem sortRows_spec (rows : List Row) :
    (sortRows rows).Perm rows ∧ (sortRows rows).Pairwise fun a b => a.index ≤ b.index := by
  let r := fun a b : Row => b.index ≤ a.index
  have : Std.Total r := ⟨fun a b => Int.le_total b.index a.index⟩
  have : IsTrans Row r := ⟨fun _ _ _ hab hbc => Int.le_trans hbc hab⟩
  have hrun : ∀ rest sorted : List Row, sorted.Pairwise r →
      (rest.foldl (fun sorted x => sorted.orderedInsert r x) sorted).Perm (rest ++ sorted) ∧
        (rest.foldl (fun sorted x => sorted.orderedInsert r x) sorted).Pairwise r := by
    intro rest
    induction rest with
    | nil => exact fun sorted hsorted => ⟨.refl _, hsorted⟩
    | cons x rest ih =>
      intro sorted hsorted
      obtain ⟨hperm, hpair⟩ := ih (sorted.orderedInsert r x) (hsorted.orderedInsert x sorted)
      exact ⟨(hperm.trans ((perm_orderedInsert r x sorted).append_left rest)).trans perm_middle, hpair⟩
  obtain ⟨hperm, hpair⟩ := hrun rows [] .nil
  rw [List.append_nil] at hperm
  exact ⟨(reverse_perm _).trans hperm, List.pairwise_reverse.mpr hpair⟩

def numbered (cs : List (List Char)) : List (List Char) := cs.mapIdx fun i c => indexText i ++ c

/-- The values, and the normalized values, are the contents `qs` with the indexes from 0 on. -/
structure NumberedAs (a : Values) (qs : List (List Char × List Char)) : Prop where
  numvals : a.numvals = qs.length
  vals : a.vals = numbered (qs.map Prod.fst)
  norms : a.norms = numbered (qs.map Prod.snd)

def Numbered (a : Values) : Prop := ∃ qs, NumberedAs a qs

def contentOf (v : List Char) : List Char := if v.head? = some '{' then (v.dropWhile (· ≠ '}')).tail else v

/-- An attribute whose values are not sorted by their equality rule. They are counted in an `int`. -/
structure Sound (a : Values) : Prop where
  numvals : a.numvals = a.vals.length
  norms : a.norms.length = a.vals.length
  fits : a.vals.length < 2 ^ 31
  unsorted : a.sorted = false

section

variable {a a' : Values} {c v : List Char} {vs vs' : List (List Char)}

theorem head?_indexText (i : ℕ) (c : List Char) : (indexText i ++ c).head? = some '{' := rfl

theorem not_mem_toDigits (i : ℕ) : '}' ∉ Nat.toDigits 10 i := by
  intro hmem
  cases (canonical_toDigits i).digits _ hmem

theorem contentOf_indexText (i : ℕ) (c : List Char) : contentOf (indexText i ++ c) = c := by
  have hall : ∀ x ∈ '{' :: Nat.toDigits 10 i, decide (x ≠ '}') = true := by
    intro x hx
    rw [decide_eq_true_eq]
    rcases List.mem_cons.mp hx with rfl | hx
    · decide
    · rintro rfl
      exact not_mem_toDigits i hx
  have htext : indexText i ++ c = '{' :: Nat.toDigits 10 i ++ '}' :: c := by simp [indexText]
  rw [contentOf, if_pos (head?_indexText i c), htext, dropWhile_append_of_pos hall]
  simp

theorem stripIndex_content (h : stripIndex v = some c) : c = contentOf v := by
  unfold stripIndex at h
  unfold contentOf
  split_ifs at h ⊢ with hhead
  · obtain ⟨⟨ds, c'⟩, hsplit, rfl⟩ := Option.map_eq_some_iff.mp h
    obtain ⟨v', rfl⟩ : ∃ v', v = '{' :: v' := by
      cases v with
      | nil => cases hhead
      | cons x v' => exact ⟨v', by rw [Option.some.inj hhead]⟩
    simp only [splitIndex] at hsplit
    split_ifs at hsplit
    obtain ⟨-, rfl⟩ := Prod.mk.inj (Option.some.inj hsplit)
    rw [dropWhile_cons_of_pos (by decide)]
  · exact (Option.some.inj h).symm

theorem renumberLoop_eq {n i : ℕ} (hn : n = i + vs.length) (h : renumberLoop n i vs = some vs') :
    vs' = vs.mapIdx fun j v => indexText (i + j) ++ contentOf v := by
  induction vs generalizing i vs' with
  | nil =>
    rw [renumberLoop, if_neg (by simp [hn])] at h
    exact (Option.some.inj h).symm
  | cons v vs ih =>
    rw [renumberLoop, if_pos (by simp [hn])] at h
    obtain ⟨c, hc, h⟩ := Option.bind_eq_some_iff.mp h
    obtain ⟨rest, hrest, h⟩ := Option.bind_eq_some_iff.mp h
    rw [length_cons] at hn
    have hnext := ih (i := i + 1) (by omega) hrest
    simp only [Nat.add_right_comm i 1, Nat.add_assoc] at hnext
    rw [mapIdx_cons, ← hnext, ← stripIndex_content hc]
    exact (Option.some.inj h).symm

theorem renumberLoop_numbered (h : renumberLoop vs.length 0 vs = some vs') : vs' = numbered (vs.map contentOf) := by
  rw [renumberLoop_eq (Nat.zero_add _).symm h, numbered]
  simp only [Nat.zero_add]
  exact ext_getElem (by simp) (by simp)

theorem length_numbered (cs : List (List Char)) : (numbered cs).length = cs.length := length_mapIdx

theorem Sound.map_fst (h : Sound a) : (a.vals.zip a.norms).map Prod.fst = a.vals := map_fst_zip (Nat.le_of_eq h.norms.symm)

theorem Sound.map_snd (h : Sound a) : (a.vals.zip a.norms).map Prod.snd = a.norms := map_snd_zip (Nat.le_of_eq h.norms)

theorem Sound.length_zip (h : Sound a) : (a.vals.zip a.norms).length = a.vals.length := by
  rw [List.length_zip, h.norms, Nat.min_self]

theorem Sound.sizes (h : Sound a) : ¬ (2 ^ 31 ≤ a.vals.length ∨ a.norms.length ≠ a.vals.length) := by
  rintro (hbig | hne)
  · exact Nat.not_le.mpr h.fits hbig
  · exact hne h.norms

theorem NumberedAs.length {qs : List (List Char × List Char)} (h : NumberedAs a qs) : a.vals.length = qs.length := by
  rw [h.vals, length_numbered, length_map]

theorem NumberedAs.sound {qs : List (List Char × List Char)} (h : NumberedAs a qs) (hfits : qs.length < 2 ^ 31)
    (hs : a.sorted = false) : Sound a := by
  refine ⟨h.numvals.trans h.length.symm, ?_, h.length ▸ hfits, hs⟩
  rw [h.norms, length_numbered, length_map, h.length]

theorem orderedValueRenumber_numbered (ha : Sound a) (h : orderedValueRenumber a = some a') :
    NumberedAs a' ((a.vals.map contentOf).zip (a.norms.map contentOf)) ∧ a'.sorted = false := by
  have hlen : (a.vals.map contentOf).length = (a.norms.map contentOf).length := by
    rw [length_map, length_map, ha.norms]
  have hfst := map_fst_zip (Nat.le_of_eq hlen)
  have hsnd := map_snd_zip (Nat.le_of_eq hlen.symm)
  have hcount : a.numvals = ((a.vals.map contentOf).zip (a.norms.map contentOf)).length := by
    rw [List.length_zip, ← hlen, Nat.min_self, length_map, ha.numvals]
  unfold orderedValueRenumber at h
  obtain ⟨vals, hvals, h⟩ := Option.bind_eq_some_iff.mp h
  rw [ha.numvals] at hvals
  have hvals' := renumberLoop_numbered hvals
  cases hn : a.nvals with
  | none =>
    have hnorms : a.norms = a.vals := by rw [Values.norms, hn, Option.getD_none]
    rw [hn] at h
    obtain rfl := Option.some.inj h
    refine ⟨⟨hcount, by rw [hfst, hvals'], ?_⟩, ha.unsorted⟩
    rw [hsnd, hnorms]
    exact hvals'
  | some ns =>
    have hnorms : a.norms = ns := by rw [Values.norms, hn, Option.getD_some]
    rw [hn] at h
    obtain ⟨nvals, hnvals, h⟩ := Option.bind_eq_some_iff.mp h
    obtain rfl := Option.some.inj h
    rw [ha.numvals, ← ha.norms, hnorms] at hnvals
    refine ⟨⟨hcount, by rw [hfst, hvals'], ?_⟩, ha.unsorted⟩
    rw [hsnd, hnorms]
    exact renumberLoop_numbered hnvals

end

/-! ## What the sort leaves numbered -/

def indexOf (v : List Char) : ℤ := (parseIndex v).getD 0

def rowOf (p : List Char × List Char) : Row := ⟨indexOf p.1, p.1, p.2⟩

def Ends (is : List ℤ) : Prop := 0 ∈ is ∧ (is.length - 1 : ℤ) ∈ is ∧ ∀ i ∈ is, 0 ≤ i ∧ i ≤ is.length - 1

instance (is : List ℤ) : Decidable (Ends is) := inferInstanceAs (Decidable (_ ∧ _ ∧ ∀ i ∈ is, _))

def numberedPairs (qs : List (List Char × List Char)) : List (List Char × List Char) :=
  qs.mapIdx fun i q => (indexText i ++ q.1, indexText i ++ q.2)

/-- The values have no indexes, or they are renumbered, or they carry the right indexes in some order. -/
def Sortable (a : Values) : Prop :=
  (∀ v ∈ a.vals, v.head? ≠ some '{') ∨ ¬ Ends (a.vals.map indexOf) ∨ ∃ qs, (a.vals.zip a.norms).Perm (numberedPairs qs)

section

variable {a a' : Values} {ps qs : List (List Char × List Char)} {rows : List Row}

theorem parseRows_eq (h : parseRows ps = some rows) : rows = ps.map rowOf := by
  induction ps generalizing rows with
  | nil => exact (Option.some.inj h).symm
  | cons p ps ih =>
    obtain ⟨index, hindex, h⟩ := Option.bind_eq_some_iff.mp h
    obtain ⟨rest, hrest, h⟩ := Option.bind_eq_some_iff.mp h
    rw [map_cons, ← ih hrest, rowOf, indexOf, hindex]
    exact (Option.some.inj h).symm

theorem checkIndexes_unindexed {vs : List (List Char)} (h : ∀ v ∈ vs, v.head? ≠ some '{') (noindex : Bool) :
    checkIndexes false noindex vs = some false := by
  induction vs generalizing noindex with
  | nil => rfl
  | cons v vs ih =>
    obtain ⟨hv, hvs⟩ := List.forall_mem_cons.mp h
    rw [checkIndexes, if_neg hv]
    exact ih hvs true

theorem Ends.perm {is is' : List ℤ} (h : Ends is) (hperm : is.Perm is') : Ends is' := by
  obtain ⟨hzero, hlast, hall⟩ := h
  rw [hperm.length_eq] at hlast hall
  exact ⟨hperm.mem_iff.mp hzero, hperm.mem_iff.mp hlast, fun i hi => hall i (hperm.mem_iff.mpr hi)⟩

theorem contiguous_ends (hsort : rows.Pairwise fun a b => a.index ≤ b.index) (h : contiguous rows = true) :
    Ends (rows.map Row.index) := by
  unfold contiguous at h
  rw [Bool.and_eq_true, decide_eq_true_eq, decide_eq_true_eq] at h
  obtain ⟨hfirst, hlast⟩ := h
  obtain ⟨first, hhead, hzero⟩ := Option.map_eq_some_iff.mp hfirst
  obtain ⟨last, htail, hmax⟩ := Option.map_eq_some_iff.mp hlast
  unfold Ends
  rw [length_map]
  refine ⟨List.mem_map.mpr ⟨first, List.mem_of_head? hhead, hzero⟩,
    List.mem_map.mpr ⟨last, List.mem_of_getLast? htail, hmax⟩, List.forall_mem_map.mpr fun r hr => ⟨?_, ?_⟩⟩
  · obtain ⟨rest, rfl⟩ := List.head?_eq_some_iff.mp hhead
    rcases List.mem_cons.mp hr with rfl | hr
    · exact hzero.ge
    · exact hzero ▸ (List.pairwise_cons.mp hsort).1 r hr
  · obtain ⟨front, rfl⟩ := List.getLast?_eq_some_iff.mp htail
    rw [← hmax]
    rcases List.mem_append.mp hr with hr | hr
    · exact (List.pairwise_append.mp hsort).2.2 r hr last (mem_singleton_self last)
    · rw [List.mem_singleton.mp hr]

theorem numberedPairs_fst (qs : List (List Char × List Char)) :
    (numberedPairs qs).map Prod.fst = numbered (qs.map Prod.fst) := ext_getElem (by simp [numberedPairs, numbered])
  (by simp [numberedPairs, numbered])

theorem numberedPairs_snd (qs : List (List Char × List Char)) :
    (numberedPairs qs).map Prod.snd = numbered (qs.map Prod.snd) := ext_getElem (by simp [numberedPairs, numbered])
  (by simp [numberedPairs, numbered])

theorem rowOf_numberedPairs (hlen : qs.length ≤ 2 ^ 31) :
    (numberedPairs qs).map rowOf = qs.mapIdx fun i q => ⟨(i : ℤ), indexText i ++ q.1, indexText i ++ q.2⟩ := by
  refine ext_getElem (by simp [numberedPairs]) fun i hi _ => ?_
  have hi' : i < 2 ^ 31 := by
    simp only [numberedPairs, length_map, length_mapIdx] at hi
    omega
  simp [numberedPairs, rowOf, indexOf, parseIndex_indexText hi']

theorem numberedPairs_sorted (hlen : qs.length ≤ 2 ^ 31) :
    ((numberedPairs qs).map rowOf).Pairwise fun a b => a.index < b.index := by
  rw [rowOf_numberedPairs hlen]
  refine List.pairwise_iff_getElem.mpr fun i j hi hj hij => ?_
  rw [getElem_mapIdx, getElem_mapIdx]
  exact Int.ofNat_lt.mpr hij

theorem sortRows_numberedPairs (hlen : qs.length ≤ 2 ^ 31) (hperm : ps.Perm (numberedPairs qs)) :
    sortRows (ps.map rowOf) = (numberedPairs qs).map rowOf := by
  obtain ⟨hsame, hsort⟩ := sortRows_spec (ps.map rowOf)
  have hstrict := numberedPairs_sorted hlen
  refine List.Perm.eq_of_pairwise (fun r r' hr hr' hle hge => ?_) hsort (hstrict.imp Int.le_of_lt) (hsame.trans (hperm.map rowOf))
  have hr := (hsame.trans (hperm.map rowOf)).mem_iff.mp hr
  obtain ⟨i, hi, rfl⟩ := getElem_of_mem hr
  obtain ⟨j, hj, rfl⟩ := getElem_of_mem hr'
  rcases Nat.lt_trichotomy i j with hij | rfl | hij
  · exact absurd hge (Int.not_le.mpr (List.pairwise_iff_getElem.mp hstrict i j hi hj hij))
  · rfl
  · exact absurd hle (Int.not_le.mpr (List.pairwise_iff_getElem.mp hstrict j i hj hi hij))

theorem sortRows_eq_self (h : rows.Pairwise fun a b => a.index ≤ b.index) : sortRows rows = rows := by
  let r := fun a b : Row => b.index ≤ a.index
  have hrun : ∀ rest sorted : List Row, (sorted.reverse ++ rest).Pairwise (fun a b => a.index ≤ b.index) →
      rest.foldl (fun sorted x => sorted.orderedInsert r x) sorted = rest.reverse ++ sorted := by
    intro rest
    induction rest with
    | nil => exact fun sorted _ => rfl
    | cons x rest ih =>
      intro sorted hpair
      have hx : sorted.orderedInsert r x = x :: sorted := by
        cases sorted with
        | nil => rfl
        | cons y sorted =>
          have hle := (List.pairwise_append.mp hpair).2.2 y (by simp) x mem_cons_self
          exact if_pos hle
      rw [foldl_cons, hx, ih (x :: sorted) (by simpa using hpair)]
      simp
  have hall := hrun rows [] h
  rw [List.append_nil] at hall
  exact (congrArg List.reverse hall).trans (reverse_reverse rows)

theorem withRows_sound (ha : Sound a) (hlen : rows.length = a.vals.length)
    (halias : a.nvals = none → ∀ r ∈ rows, r.val = r.nval) :
    Sound (a.withRows rows) ∧ (a.withRows rows).norms = rows.map Row.nval := by
  have hnorms : (a.withRows rows).norms = rows.map Row.nval := by
    unfold Values.withRows Values.norms
    dsimp only
    cases hn : a.nvals with
    | none => exact map_congr_left (halias hn)
    | some ns => rfl
  have hvals : (a.withRows rows).vals.length = a.vals.length := by simp [Values.withRows, hlen]
  refine ⟨⟨ha.numvals.trans hvals.symm, ?_, hvals ▸ ha.fits, ha.unsorted⟩, hnorms⟩
  rw [hnorms]
  simp [Values.withRows]

theorem orderedValueSort_numbered (ha : Sound a) (hsortable : Sortable a) (h : orderedValueSort a true = some (none, a')) :
    Numbered a' ∧ Sound a' := by
  have hrenumber : ∀ b : Values, Sound b → (orderedValueRenumber b).map (fun a => (none, a)) = some ((none : Option ModRc), a') →
      Numbered a' ∧ Sound a' := by
    intro b hb hrun
    obtain ⟨b', hb', heq⟩ := Option.map_eq_some_iff.mp hrun
    obtain ⟨-, rfl⟩ := Prod.mk.inj heq
    obtain ⟨hnum, hunsorted⟩ := orderedValueRenumber_numbered hb hb'
    refine ⟨⟨_, hnum⟩, hnum.sound ?_ hunsorted⟩
    rw [List.length_zip, length_map, length_map, hb.norms, Nat.min_self]
    exact hb.fits
  unfold orderedValueSort at h
  split at h
  · cases h
  split at h
  · cases h
  · rw [if_pos rfl] at h
    exact hrenumber a ha h
  next hindex =>
  split at h
  · cases h
  next rows hrows =>
  obtain rfl := parseRows_eq hrows
  obtain ⟨hperm, hsort⟩ := sortRows_spec ((a.vals.zip a.norms).map rowOf)
  have hlen : (sortRows ((a.vals.zip a.norms).map rowOf)).length = a.vals.length := by
    rw [hperm.length_eq, length_map, ha.length_zip]
  have halias : a.nvals = none → ∀ r ∈ sortRows ((a.vals.zip a.norms).map rowOf), r.val = r.nval := by
    intro hn r hr
    obtain ⟨p, hp, rfl⟩ := List.mem_map.mp (hperm.mem_iff.mp hr)
    rw [Values.norms, hn, Option.getD_none, zip_eq_zipWith, zipWith_self, List.mem_map] at hp
    obtain ⟨v, -, rfl⟩ := hp
    rfl
  obtain ⟨hsound, hnorms⟩ := withRows_sound ha hlen halias
  dsimp only at h
  split_ifs at h with hdo
  · exact hrenumber _ hsound h
  obtain ⟨-, rfl⟩ := Prod.mk.inj (Option.some.inj h)
  refine ⟨?_, hsound⟩
  have hends : Ends (a.vals.map indexOf) := by
    have hcont : contiguous (sortRows ((a.vals.zip a.norms).map rowOf)) = true := by simpa using hdo
    have hsame : ((a.vals.zip a.norms).map rowOf).map Row.index = a.vals.map indexOf := by
      calc ((a.vals.zip a.norms).map rowOf).map Row.index
          _ = ((a.vals.zip a.norms).map Prod.fst).map indexOf := by
            rw [List.map_map, List.map_map]
            rfl
          _ = a.vals.map indexOf := by rw [ha.map_fst]
    exact hsame ▸ (contiguous_ends hsort hcont).perm (hperm.map Row.index)
  rcases hsortable with hnone | hnot | ⟨qs, hqs⟩
  · rw [checkIndexes_unindexed hnone false] at hindex
    cases hindex
  · exact absurd hends hnot
  · have hcount : qs.length = a.vals.length := by
      have hl := hqs.length_eq
      rw [ha.length_zip, numberedPairs, length_mapIdx] at hl
      exact hl.symm
    have hsorted := sortRows_numberedPairs (hcount ▸ Nat.le_of_lt ha.fits) hqs
    rw [hsorted] at hnorms ⊢
    rw [List.map_map, show Row.nval ∘ rowOf = Prod.snd from rfl, numberedPairs_snd] at hnorms
    refine ⟨qs, ha.numvals.trans hcount.symm, ?_, hnorms⟩
    rw [← numberedPairs_fst, show (Prod.fst : List Char × List Char → _) = Row.val ∘ rowOf from rfl, ← List.map_map]
    rfl

def Indexed (v : List Char) : Prop := v.head? = some '{' ∧ '}' ∈ v ∧ (parseIndex v).isSome = true

instance (v : List Char) : Decidable (Indexed v) := inferInstanceAs (Decidable (_ ∧ _ ∧ _))

def Readable (a : Values) : Prop := (∀ v ∈ a.vals, v.head? ≠ some '{') ∨ ∀ v ∈ a.vals, Indexed v

def Settled (a : Values) : Prop := (∀ v ∈ a.vals, Indexed v) → (a.vals.map indexOf).Pairwise (· ≤ ·)

theorem checkIndexes_indexed {vs : List (List Char)} (h : ∀ v ∈ vs, Indexed v) (index : Bool) :
    ∃ r, checkIndexes index false vs = some r := by
  induction vs generalizing index with
  | nil => exact ⟨index, rfl⟩
  | cons v vs ih =>
    obtain ⟨hv, hvs⟩ := List.forall_mem_cons.mp h
    rw [checkIndexes, if_pos hv.1, if_neg (by simp [hv.2.1])]
    exact ih hvs true

theorem checkIndexes_true {vs : List (List Char)} {noindex r : Bool} (h : checkIndexes true noindex vs = some r) :
    ∀ v ∈ vs, v.head? = some '{' ∧ '}' ∈ v := by
  induction vs with
  | nil => exact forall_mem_nil _
  | cons v vs ih =>
    rw [checkIndexes] at h
    split_ifs at h with hv hbad
    · exact List.forall_mem_cons.mpr ⟨⟨hv, not_not.mp fun hno => hbad (.inl hno)⟩, ih h⟩
    · exact absurd rfl ‹_›

theorem checkIndexes_noindex (vs : List (List Char)) : checkIndexes false true vs ≠ some true := by
  induction vs with
  | nil => simp [checkIndexes]
  | cons v vs ih =>
    rw [checkIndexes]
    split_ifs <;> simp_all

theorem checkIndexes_all {vs : List (List Char)} (h : checkIndexes false false vs = some true) :
    ∀ v ∈ vs, v.head? = some '{' ∧ '}' ∈ v := by
  cases vs with
  | nil => exact forall_mem_nil _
  | cons v vs =>
    rw [checkIndexes] at h
    split_ifs at h with hv hbad
    · exact List.forall_mem_cons.mpr ⟨⟨hv, not_not.mp fun hno => hbad (.inl hno)⟩, checkIndexes_true h⟩
    · exact absurd h (checkIndexes_noindex vs)

theorem parseRows_isSome : (∃ rows, parseRows ps = some rows) ↔ ∀ p ∈ ps, (parseIndex p.1).isSome = true := by
  induction ps with
  | nil => simp [parseRows]
  | cons p ps ih =>
    rw [forall_mem_cons, ← ih, Option.isSome_iff_exists]
    constructor
    · rintro ⟨rows, hrows⟩
      obtain ⟨index, hindex, hrest⟩ := Option.bind_eq_some_iff.mp hrows
      obtain ⟨rest, hrest, -⟩ := Option.bind_eq_some_iff.mp hrest
      exact ⟨⟨index, hindex⟩, rest, hrest⟩
    · rintro ⟨⟨index, hindex⟩, rest, hrest⟩
      simp [parseRows, hindex, hrest]

theorem orderedValueSort_readable {doRenumber : Bool} {rc : Option ModRc} (ha : Sound a) (hread : Readable a)
    (h : orderedValueSort a doRenumber = some (rc, a')) : rc = none := by
  have hresult : ∀ {r : Option Values}, r.map (fun b => ((none : Option ModRc), b)) = some (rc, a') → rc = none := by
    intro r hr
    obtain ⟨b, -, heq⟩ := Option.map_eq_some_iff.mp hr
    exact (Prod.mk.inj heq).1.symm
  have hcheck : ∃ r, checkIndexes false false a.vals = some r := by
    rcases hread with hnone | hall
    · exact ⟨false, checkIndexes_unindexed hnone false⟩
    · exact checkIndexes_indexed hall false
  obtain ⟨r, hr⟩ := hcheck
  unfold orderedValueSort at h
  rw [if_neg ha.sizes, hr] at h
  cases r with
  | false =>
    dsimp only at h
    split_ifs at h
    · exact hresult h
    · exact (Prod.mk.inj (Option.some.inj h)).1.symm
  | true =>
    have hrows : ∃ rows, parseRows (a.vals.zip a.norms) = some rows := by
      refine parseRows_isSome.mpr fun p hp => ?_
      have hp' : p.1 ∈ a.vals := ha.map_fst ▸ List.mem_map_of_mem hp
      rcases hread with hnone | hall
      · exact absurd (checkIndexes_all hr p.1 hp').1 (hnone p.1 hp')
      · exact (hall p.1 hp').2.2
    obtain ⟨rows, hrows⟩ := hrows
    rw [hrows] at h
    dsimp only at h
    split_ifs at h
    · exact hresult h
    · exact (Prod.mk.inj (Option.some.inj h)).1.symm

theorem withRows_self (ha : Sound a) : a.withRows ((a.vals.zip a.norms).map rowOf) = a := by
  have hvals : ((a.vals.zip a.norms).map rowOf).map Row.val = a.vals := by
    rw [List.map_map]
    exact ha.map_fst
  have hnvals : (a.nvals.map fun _ => ((a.vals.zip a.norms).map rowOf).map Row.nval) = a.nvals := by
    rw [List.map_map, show Row.nval ∘ rowOf = Prod.snd from rfl, ha.map_snd, Values.norms]
    cases a.nvals <;> rfl
  rw [Values.withRows, hvals, hnvals]

theorem orderedValueSort_settled (ha : Sound a) (hsettled : Settled a) : ∃ rc, orderedValueSort a false = some (rc, a) := by
  unfold orderedValueSort
  rw [if_neg ha.sizes]
  cases hcheck : checkIndexes false false a.vals with
  | none => exact ⟨_, rfl⟩
  | some r =>
    cases r with
    | false => exact ⟨none, rfl⟩
    | true =>
      cases hrows : parseRows (a.vals.zip a.norms) with
      | none => exact ⟨_, rfl⟩
      | some rows =>
        have hparsed := parseRows_isSome.mp ⟨rows, hrows⟩
        have hall : ∀ v ∈ a.vals, Indexed v := by
          intro v hv
          obtain ⟨hhead, hbrace⟩ := checkIndexes_all hcheck v hv
          rw [← ha.map_fst] at hv
          obtain ⟨p, hp, rfl⟩ := List.mem_map.mp hv
          exact ⟨hhead, hbrace, hparsed p hp⟩
        obtain rfl := parseRows_eq hrows
        have hsort : ((a.vals.zip a.norms).map rowOf).Pairwise fun a b => a.index ≤ b.index := by
          have hpair := hsettled hall
          rw [← ha.map_fst, List.map_map, pairwise_map] at hpair
          rw [pairwise_map]
          exact hpair
        refine ⟨none, ?_⟩
        dsimp only
        rw [sortRows_eq_self hsort, withRows_self ha]
        rfl

theorem eq_range_of_ends {is : List ℤ} (hsort : is.Pairwise (· < ·)) (h : Ends is) : is = (List.range is.length).map (↑) := by
  have hnodup : is.Nodup := hsort.imp Int.ne_of_lt
  have hsub : is ⊆ (List.range is.length).map ((↑) : ℕ → ℤ) := by
    intro i hi
    obtain ⟨hge, hle⟩ := h.2.2 i hi
    exact List.mem_map.mpr ⟨i.toNat, List.mem_range.mpr (by omega), Int.toNat_of_nonneg hge⟩
  have hperm := (subperm_of_subset hnodup hsub).perm_of_length_le (by simp)
  have hrange : ((List.range is.length).map ((↑) : ℕ → ℤ)).Pairwise (· < ·) :=
    List.pairwise_map.mpr (List.pairwise_lt_range.imp Int.ofNat_lt.mpr)
  exact List.Perm.eq_of_pairwise (fun a b _ _ hab hba => absurd hba (Int.not_lt.mpr (Int.le_of_lt hab))) hsort hrange hperm

theorem mem_numberedPairs {p : List Char × List Char} (hlen : qs.length ≤ 2 ^ 31) (h : p ∈ numberedPairs qs) :
    ∃ i q, indexOf p.1 = ((i : ℕ) : ℤ) ∧ p = (indexText i ++ (q : List Char × List Char).1, indexText i ++ q.2) ∧ i < 2 ^ 31 := by
  obtain ⟨i, hi, rfl⟩ := List.mem_mapIdx.mp h
  have hi' : i < 2 ^ 31 := Nat.lt_of_lt_of_le hi hlen
  refine ⟨i, qs[i], ?_, rfl, hi'⟩
  rw [indexOf, parseIndex_indexText hi', Option.getD_some]

theorem sublist_numberedPairs (hlen : qs.length ≤ 2 ^ 31) (hsub : ps.Sublist (numberedPairs qs))
    (hends : Ends (ps.map fun p => indexOf p.1)) : ps = numberedPairs (ps.map fun p => (contentOf p.1, contentOf p.2)) := by
  have hsort : (ps.map fun p => indexOf p.1).Pairwise (· < ·) :=
    List.pairwise_map.mpr (List.pairwise_map.mp (numberedPairs_sorted hlen) |>.sublist hsub)
  have hrange := eq_range_of_ends hsort hends
  refine ext_getElem (by simp [numberedPairs]) fun j hj _ => ?_
  obtain ⟨i, q, hindex, hp, -⟩ := mem_numberedPairs hlen (hsub.subset (getElem_mem hj))
  have hj' : indexOf ps[j].1 = (j : ℤ) := by
    have hget : (ps.map fun p => indexOf p.1)[j]? = some (j : ℤ) := by
      rw [hrange]
      simp [hj]
    simpa [hj] using hget
  obtain rfl : i = j := Int.ofNat_inj.mp (hindex.symm.trans hj')
  simp only [numberedPairs, getElem_mapIdx, getElem_map, hp, contentOf_indexText]

end

end AttrVals
end Slapd
end ReOpenLDAP
