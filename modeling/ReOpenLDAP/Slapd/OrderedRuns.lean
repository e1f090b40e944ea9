import ReOpenLDAP.Lib.Run
import ReOpenLDAP.Slapd.DeleteValues
import ReOpenLDAP.Slapd.OrderedNumbers

/-!
# Slapd.OrderedRuns

X-ORDERED VALUES attributes over any sequence of calls.

* `ordered_values_run` — where the calls keep to the conditions, the values are numbered after each of them.
-/

namespace ReOpenLDAP
namespace Slapd
namespace AttrVals

open Decimal InPlace List Option

/-- The place for a new value among `n`: the one that is asked for, or the end. -/
def placeOf (n : ℕ) (k : ℤ) : ℕ := if k < 0 ∨ (n : ℤ) < k then n else k.toNat

def insertAll {α : Type} : List α → List (ℤ × α) → List α
  | cs, [] => cs
  | cs, (k, c) :: ps => insertAll (cs.insertIdx (placeOf cs.length k) c) ps

/-- `k` of a value that is given as `{k}v`; -1 for any other. -/
def askedIndex (v : List Char) : ℤ :=
  match splitIndex v with
  | some (ds, _) => if ds ≠ [] ∧ ds.all Char.isDigit = true then number ds else -1
  | none => -1

def pairContent (p : List Char × List Char) : List Char × List Char :=
  if p.1.head? = some '{' then (contentOf p.1, contentOf p.2) else p

def Values.pairs (a : Values) : List (List Char × List Char) := a.vals.zip a.norms

def pairsOf (attr : Option Values) : List (List Char × List Char) := (attr.map Values.pairs).getD []

def AddRight (attr : Option Values) (vals : List (List Char)) (nvals : Option (List (List Char)))
    (attr' : Option Values) : Prop :=
  ∃ a' ∈ attr', NumberedAs a' (insertAll ((pairsOf attr).map pairContent)
    ((vals.zip (nvals.getD vals)).map fun p => (askedIndex p.1, pairContent p)))

/-- The index that is read for each new value gives the place that it asks for. -/
def SamePlaces : ℕ → List (List Char) → Prop
  | _, [] => True
  | n, v :: vs => (∀ k ∈ addIndex v, placeOf n k = placeOf n (askedIndex v)) ∧ SamePlaces (n + 1) vs

def Braced (ps : List (List Char × List Char)) : Prop := ∀ p ∈ ps, p.1.head? ≠ some '{' → p.2.head? ≠ some '{'

instance (ps : List (List Char × List Char)) : Decidable (Braced ps) := inferInstanceAs (Decidable (∀ p ∈ ps, _))

section

variable {α β : Type} {new nnew new' nnew' : List (List Char)} {ps : List (List Char × List Char)}

theorem placeOf_le (n : ℕ) (k : ℤ) : placeOf n k ≤ n := by
  unfold placeOf
  split_ifs <;> omega

theorem zip_insertIdx (xs : List α) (ys : List β) (k : ℕ) (x : α) (y : β) :
    (xs.insertIdx k x).zip (ys.insertIdx k y) = (xs.zip ys).insertIdx k (x, y) := by
  induction k generalizing xs ys with
  | zero => rfl
  | succ k ih =>
    cases xs with
    | nil => simp
    | cons x' xs =>
      cases ys with
      | nil => simp
      | cons y' ys => simp [ih]

theorem insertAll_map (f : α → β) (cs : List α) (ps : List (ℤ × α)) :
    (insertAll cs ps).map f = insertAll (cs.map f) (ps.map fun p => (p.1, f p.2)) := by
  induction ps generalizing cs with
  | nil => rfl
  | cons p ps ih => rw [insertAll, ih, map_insertIdx, map_cons, insertAll, length_map]

theorem insertNew_eq {k : ℕ} (hk : k ≤ new.length) (v : List Char) : insertNew new k v = some (new.insertIdx k v) := by
  obtain ⟨pre, mid, rfl, rfl⟩ : ∃ pre mid, new = pre ++ mid ∧ k = pre.length :=
    ⟨new.take k, new.drop k, (take_append_drop k new).symm, by rw [length_take, Nat.min_eq_left hk]⟩
  obtain ⟨y, hy⟩ := shiftUp_spec (pre.map some) (mid.map some) [] none
  have hcells : (pre ++ mid).map some ++ [none] = pre.map some ++ (mid.map some ++ none :: []) := by simp
  have hcount : (pre ++ mid).length - pre.length = (mid.map some).length := by simp
  have hstore := store_middle (pre.map some) (mid.map some ++ []) y (some v)
  rw [length_map] at hy hstore
  unfold insertNew
  simp only [hcells, hcount, hy, hstore, bind_eq_bind, bind_some]
  rw [insertIdx_middle, List.append_nil, ← map_cons, ← map_append, reduceOption_map_some]

theorem addLoop_cons {v nv : List Char} (hlen : new.length = nnew.length)
    (h : addLoop new nnew ((v, nv) :: ps) = some (some (new', nnew'))) :
    ∃ k, addIndex v = some k ∧
      addLoop (new.insertIdx (placeOf new.length k) v) (nnew.insertIdx (placeOf new.length k) nv) ps =
        some (some (new', nnew')) := by
  rw [addLoop] at h
  cases hk : addIndex v with
  | none =>
    rw [hk] at h
    cases h
  | some k =>
    rw [hk] at h
    dsimp only at h
    refine ⟨k, rfl, ?_⟩
    split_ifs at h with hend
    · rw [placeOf, if_pos hend, insertIdx_length_self, hlen, insertIdx_length_self]
      exact h
    · have hle : k.toNat ≤ new.length := by omega
      rw [insertNew_eq hle, insertNew_eq (hlen ▸ hle)] at h
      rw [placeOf, if_neg hend]
      exact h

theorem addLoop_right (hlen : new.length = nnew.length) (hsame : SamePlaces new.length (ps.map Prod.fst))
    (h : addLoop new nnew ps = some (some (new', nnew'))) :
    new'.zip nnew' = insertAll (new.zip nnew) (ps.map fun p => (askedIndex p.1, p)) ∧
      new'.length = nnew'.length ∧ new'.length = new.length + ps.length := by
  induction ps generalizing new nnew with
  | nil =>
    obtain ⟨rfl, rfl⟩ := Prod.mk.inj (Option.some.inj (Option.some.inj h))
    exact ⟨rfl, hlen, rfl⟩
  | cons p ps ih =>
    obtain ⟨v, nv⟩ := p
    obtain ⟨hplace, hrest⟩ := hsame
    obtain ⟨k, hk, h⟩ := addLoop_cons hlen h
    have hle := placeOf_le new.length k
    have hnew := length_insertIdx_of_le_length hle v
    have hnnew := length_insertIdx_of_le_length (hlen ▸ hle : placeOf new.length k ≤ nnew.length) nv
    obtain ⟨hzip, hlen', hcount⟩ := ih (by rw [hnew, hnnew, hlen]) (hnew ▸ hrest) h
    refine ⟨?_, hlen', by rw [hcount, hnew, length_cons]; omega⟩
    rw [hzip, zip_insertIdx, hplace k hk, map_cons, insertAll, List.length_zip, ← hlen, Nat.min_self]

theorem addLoop_alias (hps : ∀ p ∈ ps, p.1 = p.2) (h : addLoop new new ps = some (some (new', nnew'))) : new' = nnew' := by
  induction ps generalizing new with
  | nil =>
    obtain ⟨rfl, rfl⟩ := Prod.mk.inj (Option.some.inj (Option.some.inj h))
    rfl
  | cons p ps ih =>
    obtain ⟨v, nv⟩ := p
    obtain ⟨hp, hrest⟩ := List.forall_mem_cons.mp hps
    obtain rfl : v = nv := hp
    obtain ⟨k, -, h⟩ := addLoop_cons rfl h
    exact ih hrest h

theorem pairContent_eq {p : List Char × List Char} (h : p.1.head? ≠ some '{' → p.2.head? ≠ some '{') :
    pairContent p = (contentOf p.1, contentOf p.2) := by
  unfold pairContent
  split_ifs with hhead
  · rfl
  · rw [contentOf, if_neg hhead, contentOf, if_neg (h hhead)]

end

section

variable {t : AttrType} {a a' : Values} {vals : List (List Char)} {nvals : Option (List (List Char))}

theorem attrAlloc_sound (ht : t.sortedVal = false) : Sound (attrAlloc t) := ⟨rfl, rfl, Nat.two_pow_pos 31, ht⟩

/-- What follows the sort in `ordered_value_add`. -/
def addTo (a : Values) (vals : List (List Char)) (nvals : Option (List (List Char))) : Option (Option ModRc × Values) := do
  let v2 := nvals.getD vals
  if v2.length ≠ vals.length ∨ a.numvals ≠ a.vals.length ∨ a.norms.length ≠ a.vals.length then none
  else if 2 ^ 31 ≤ a.numvals + vals.length then none
  else if (nvals ≠ none ∧ a.vals ≠ [] ∧ a.nvals = none) ∨ (nvals = none ∧ a.nvals ≠ none) then none
  else
    match ← addLoop a.vals a.norms (vals.zip v2) with
    | none => some (some .other, a)
    | some (new, nnew) =>
      let a ← orderedValueRenumber { a with numvals := new.length, vals := new, nvals := nvals.map fun _ => nnew }
      some (none, a)

theorem addTo_right (ha : Sound a) (hbraced : Braced a.pairs) (hnew : Braced (vals.zip (nvals.getD vals)))
    (hsame : SamePlaces a.vals.length vals) (h : addTo a vals nvals = some (none, a')) :
    AddRight (some a) vals nvals (some a') ∧ Sound a' := by
  unfold addTo at h
  dsimp only at h
  split_ifs at h with hshape hsize hforms
  obtain ⟨r, hloop, h⟩ := Option.bind_eq_some_iff.mp h
  obtain ⟨⟨new, nnew⟩, rfl⟩ : ∃ p, r = some p := by
    cases r with
    | none => cases h
    | some p => exact ⟨p, rfl⟩
  obtain ⟨b, hb, heq⟩ := Option.bind_eq_some_iff.mp h
  obtain ⟨-, rfl⟩ := Prod.mk.inj (Option.some.inj heq)
  have hlen : (nvals.getD vals).length = vals.length := not_not.mp (not_or.mp hshape).1
  have hfst : (vals.zip (nvals.getD vals)).map Prod.fst = vals := map_fst_zip (Nat.le_of_eq hlen.symm)
  obtain ⟨hzip, hlen', hcount⟩ := addLoop_right ha.norms.symm (hfst.symm ▸ hsame) hloop
  rw [List.length_zip, hlen, Nat.min_self] at hcount
  have hnorms : (⟨new.length, new, nvals.map fun _ => nnew, a.sorted⟩ : Values).norms = nnew := by
    cases hn : nvals with
    | some ns => rfl
    | none =>
      have hnone : a.nvals = none := by
        by_contra hsome
        exact hforms (.inr ⟨hn, hsome⟩)
      have hsame' : a.norms = a.vals := by rw [Values.norms, hnone, getD_none]
      rw [hn, getD_none, hsame'] at hloop
      refine addLoop_alias (fun p hp => ?_) hloop
      rw [zip_eq_zipWith, zipWith_self, List.mem_map] at hp
      obtain ⟨v, -, rfl⟩ := hp
      rfl
  have hsound : Sound ⟨new.length, new, nvals.map fun _ => nnew, a.sorted⟩ := by
    refine ⟨rfl, by rw [hnorms, hlen'], ?_, ha.unsorted⟩
    have := ha.numvals
    show new.length < 2 ^ 31
    omega
  obtain ⟨hnum, hunsorted⟩ := orderedValueRenumber_numbered hsound hb
  have hqs : (new.map contentOf).zip (nnew.map contentOf) = insertAll (a.pairs.map pairContent)
      ((vals.zip (nvals.getD vals)).map fun p => (askedIndex p.1, pairContent p)) := by
    calc (new.map contentOf).zip (nnew.map contentOf)
        _ = (new.zip nnew).map fun p => (contentOf p.1, contentOf p.2) := zip_map ..
        _ = insertAll (a.pairs.map fun p => (contentOf p.1, contentOf p.2))
            ((vals.zip (nvals.getD vals)).map fun p => (askedIndex p.1, (contentOf p.1, contentOf p.2))) := by
          rw [hzip, insertAll_map, List.map_map]
          rfl
        _ = _ := by
          rw [map_congr_left fun p hp => (pairContent_eq (hbraced p hp)).symm,
            map_congr_left fun p hp => congrArg (askedIndex p.1, ·) (pairContent_eq (hnew p hp)).symm]
  rw [hnorms, hqs] at hnum
  have hnumvals := orderedValueRenumber_numvals hb
  refine ⟨⟨b, rfl, hnum⟩, hnum.sound ?_ hunsorted⟩
  rw [← hnum.numvals, hnumvals]
  exact hsound.fits

theorem orderedValueAdd_some {rc : Option ModRc} (h : orderedValueSort a false = some (rc, a)) :
    orderedValueAdd t (some a) vals nvals = addTo a vals nvals := by
  unfold orderedValueAdd
  dsimp only
  rw [h]
  rfl

theorem orderedValueAdd_right (ht : t.sortedVal = false) {attr : Option Values} (hattr : ∀ a ∈ attr, Sound a)
    (hold : ∀ a ∈ attr, Settled a ∧ Braced a.pairs) (hnew : Braced (vals.zip (nvals.getD vals)))
    (hsame : SamePlaces (pairsOf attr).length vals) (h : orderedValueAdd t attr vals nvals = some (none, a')) :
    AddRight attr vals nvals (some a') ∧ Sound a' := by
  cases attr with
  | none => exact addTo_right (attrAlloc_sound ht) (forall_mem_nil _) hnew hsame h
  | some a =>
    have ha := hattr a rfl
    obtain ⟨hsettled, hbraced⟩ := hold a rfl
    obtain ⟨rc, hrc⟩ := orderedValueSort_settled ha hsettled
    rw [orderedValueAdd_some hrc] at h
    exact addTo_right ha hbraced hnew (ha.length_zip ▸ hsame) h

end

/-! ## Numbered values -/

section

variable {a : Values} {qs : List (List Char × List Char)} {idx : List (Option ℕ)}

theorem NumberedAs.pairs (h : NumberedAs a qs) : a.pairs = numberedPairs qs := by
  rw [Values.pairs, h.vals, h.norms, ← numberedPairs_fst, ← numberedPairs_snd, ← unzip_fst, ← unzip_snd]
  exact zip_unzip _

theorem NumberedAs.indexed (h : NumberedAs a qs) (ha : Sound a) : ∀ v ∈ a.vals, Indexed v := by
  intro v hv
  have hlen : qs.length ≤ 2 ^ 31 := h.length ▸ Nat.le_of_lt ha.fits
  rw [← ha.map_fst, ← Values.pairs, h.pairs] at hv
  obtain ⟨p, hp, rfl⟩ := List.mem_map.mp hv
  obtain ⟨i, q, -, rfl, hi⟩ := mem_numberedPairs hlen hp
  refine ⟨rfl, by simp [indexText], ?_⟩
  rw [parseIndex_indexText hi]
  rfl

theorem NumberedAs.settled (h : NumberedAs a qs) (ha : Sound a) : Settled a := by
  intro _
  have hsort := numberedPairs_sorted (h.length ▸ Nat.le_of_lt ha.fits : qs.length ≤ 2 ^ 31)
  rw [← h.pairs, pairwise_map] at hsort
  rw [← ha.map_fst, List.map_map, pairwise_map]
  exact hsort.imp Int.le_of_lt

theorem NumberedAs.braced (h : NumberedAs a qs) : Braced a.pairs := by
  intro p hp hno
  rw [h.pairs] at hp
  obtain ⟨i, hi, rfl⟩ := List.mem_mapIdx.mp hp
  exact absurd rfl hno

theorem dropAt_zip (idx : List (Option ℕ)) (k : ℕ) (xs ys : List (List Char)) :
    (dropAt idx k xs).zip (dropAt idx k ys) = dropAt idx k (xs.zip ys) := by
  induction xs generalizing k ys with
  | nil => rfl
  | cons x xs ih =>
    cases ys with
    | nil => simp [dropAt]
    | cons y ys =>
      rw [zip_cons_cons, dropAt, dropAt, dropAt]
      split_ifs
      · exact ih (k + 1) ys
      · exact congrArg ((x, y) :: ·) (ih (k + 1) ys)

theorem dropAt_length (idx : List (Option ℕ)) (k : ℕ) {xs ys : List (List Char)} (h : xs.length = ys.length) :
    (dropAt idx k xs).length = (dropAt idx k ys).length := by
  induction xs generalizing k ys with
  | nil => rw [List.length_eq_zero_iff.mp h.symm]
  | cons x xs ih =>
    obtain ⟨y, ys, rfl⟩ := exists_cons_of_length_eq_add_one h.symm
    have hrest := @ih (k + 1) ys (Nat.succ.inj h)
    rw [dropAt, dropAt]
    split_ifs
    · exact hrest
    · exact congrArg Nat.succ hrest

theorem Sound.without (h : Sound a) (idx : List (Option ℕ)) : Sound (a.without idx) where
  numvals := rfl
  norms := by
    rw [without_norms]
    exact dropAt_length idx 0 h.norms
  fits := Nat.lt_of_le_of_lt (dropAt_sublist idx 0 a.vals).length_le h.fits
  unsorted := h.unsorted

theorem left_sortable (h : NumberedAs a qs) (ha : Sound a) (idx : List (Option ℕ)) :
    Readable (a.without idx) ∧ Sortable (a.without idx) := by
  have hlen : qs.length ≤ 2 ^ 31 := h.length ▸ Nat.le_of_lt ha.fits
  have hleft := ha.without idx
  have hsub : (a.without idx).pairs.Sublist (numberedPairs qs) := by
    rw [Values.pairs, without_norms, ← h.pairs]
    exact dropAt_zip idx 0 a.vals a.norms ▸ dropAt_sublist idx 0 a.pairs
  refine ⟨.inr fun v hv => h.indexed ha v ((dropAt_sublist idx 0 a.vals).subset hv), ?_⟩
  by_cases hends : Ends ((a.without idx).vals.map indexOf)
  · rw [← hleft.map_fst, List.map_map] at hends
    exact .inr (.inr ⟨_, .of_eq (sublist_numberedPairs hlen hsub hends)⟩)
  · exact .inr (.inl hends)

end

theorem Sound.wellFormed {a : Values} (h : Sound a) (t : AttrType) : a.WellFormed t :=
  ⟨h.numvals, h.norms, fun hs => by rw [h.unsorted] at hs; cases hs⟩

def leftOf (t : AttrType) (a : Values) (values : List (List Char)) (nvalues : Option (List (List Char))) : Values :=
  a.without (placed t a nvalues.isSome (nvalues.getD values))

theorem modifyDelete_numbered {t : AttrType} {hasRule permissive : Bool} {attr attr' : Option Values}
    {values nvalues : Option (List (List Char))} (ht : t.orderedVal = true) (hattr : ∀ a ∈ attr, Sound a)
    (hleft : ∀ a ∈ attr, ∀ vals ∈ values, Readable (leftOf t a vals nvalues) ∧ Sortable (leftOf t a vals nvalues))
    (h : modifyDeleteVindex t hasRule attr values nvalues permissive = some (none, attr')) :
    ∀ a ∈ attr', Numbered a ∧ Sound a := by
  have hnone : ∀ {r : Option ModRc}, some (r, none) = some (none, attr') → ∀ a ∈ attr', Numbered a ∧ Sound a := by
    intro r hr
    obtain ⟨-, rfl⟩ := Prod.mk.inj (Option.some.inj hr)
    exact fun a ha => nomatch ha
  cases values with
  | none => exact hnone h
  | some vals =>
    cases hasRule with
    | false => cases h
    | true =>
      cases attr with
      | none => exact hnone h
      | some a =>
        have ha := hattr a rfl
        obtain ⟨hread, hsortable⟩ := hleft a rfl vals rfl
        by_cases hrefused : ∃ v ∈ nvalues.getD vals, Refused t a nvalues.isSome permissive v
        · obtain ⟨rc, hrc⟩ := modifyDelete_refused (ha.wellFormed t) rfl rfl hrefused
          rw [hrc] at h
          cases h
        rw [modifyDelete_run (ha.wellFormed t) rfl rfl (fun v hv hno => hrefused ⟨v, hv, .inl hno⟩)
          fun hp v hv hno => hrefused ⟨v, hv, .inr ⟨hp, hno⟩⟩, finish] at h
        split_ifs at h
        · exact hnone h
        · obtain ⟨left, hfin, heq⟩ := Option.map_eq_some_iff.mp h
          obtain ⟨-, rfl⟩ := Prod.mk.inj heq
          obtain ⟨⟨rc, b⟩, hsort, rfl⟩ := Option.map_eq_some_iff.mp hfin
          obtain rfl := orderedValueSort_readable (ha.without _) hread hsort
          rintro _ ⟨⟩
          exact orderedValueSort_numbered (ha.without _) hsortable hsort

inductive OrderedCall where
  | add (vals : List (List Char)) (nvals : Option (List (List Char)))
  | delete (values nvalues : Option (List (List Char))) (permissive : Bool)
  | sort

inductive OrderedStep (t : AttrType) (hasRule : Bool) : Option Values → OrderedCall → Option Values → Prop where
  | add {attr : Option Values} {vals : List (List Char)} {nvals : Option (List (List Char))} {a' : Values}
      (h : orderedValueAdd t attr vals nvals = some (none, a')) : OrderedStep t hasRule attr (.add vals nvals) (some a')
  | delete {attr attr' : Option Values} {values nvalues : Option (List (List Char))} {permissive : Bool}
      (h : modifyDeleteVindex t hasRule attr values nvalues permissive = some (none, attr')) :
      OrderedStep t hasRule attr (.delete values nvalues permissive) attr'
  | sort {a a' : Values} (h : orderedValueSort a true = some (none, a')) : OrderedStep t hasRule (some a) .sort (some a')

def OrderedRight (attr : Option Values) (c : OrderedCall) (attr' : Option Values) : Prop :=
  (∀ a ∈ attr', Numbered a) ∧ ∀ vals nvals, c = .add vals nvals → AddRight attr vals nvals attr'

def OrderedGood (t : AttrType) (attr : Option Values) : OrderedCall → Prop
  | .add vals nvals => (∀ a ∈ attr, Numbered a ∨ Settled a ∧ Braced a.pairs) ∧ Braced (vals.zip (nvals.getD vals)) ∧
      SamePlaces (pairsOf attr).length vals
  | .delete values nvalues _ => ∀ a ∈ attr, Numbered a ∨
      ∀ vals ∈ values, Readable (leftOf t a vals nvalues) ∧ Sortable (leftOf t a vals nvalues)
  | .sort => ∀ a ∈ attr, Numbered a ∨ Sortable a

section

variable {t : AttrType} {hasRule : Bool}

theorem orderedStep_right (hord : t.orderedVal = true) (hsort : t.sortedVal = false) {attr attr' : Option Values}
    {c : OrderedCall} (hattr : ∀ a ∈ attr, Sound a) (h : OrderedStep t hasRule attr c attr') (hgood : OrderedGood t attr c) :
    OrderedRight attr c attr' ∧ ∀ a ∈ attr', Sound a := by
  cases h with
  | @add _ vals nvals a' h =>
    obtain ⟨hold, hnew, hsame⟩ := hgood
    have hold' : ∀ a ∈ attr, Settled a ∧ Braced a.pairs := by
      intro a ha
      rcases hold a ha with ⟨qs, hqs⟩ | hold
      · exact ⟨hqs.settled (hattr a ha), hqs.braced⟩
      · exact hold
    obtain ⟨hright, hsound⟩ := orderedValueAdd_right hsort hattr hold' hnew hsame h
    refine ⟨⟨?_, fun vals' nvals' heq => ?_⟩, ?_⟩
    · obtain ⟨b, hb, hnum⟩ := hright
      intro a ha
      exact mem_unique hb ha ▸ ⟨_, hnum⟩
    · obtain ⟨rfl, rfl⟩ := OrderedCall.add.inj heq
      exact hright
    · rintro _ ⟨⟩
      exact hsound
  | @delete _ _ values nvalues permissive h =>
    have hleft : ∀ a ∈ attr, ∀ vals ∈ values, Readable (leftOf t a vals nvalues) ∧ Sortable (leftOf t a vals nvalues) := by
      intro a ha
      rcases hgood a ha with ⟨qs, hqs⟩ | hgood
      · exact fun vals _ => left_sortable hqs (hattr a ha) _
      · exact hgood
    have hdone := modifyDelete_numbered hord hattr hleft h
    exact ⟨⟨fun a ha => (hdone a ha).1, fun _ _ heq => nomatch heq⟩, fun a ha => (hdone a ha).2⟩
  | @sort a a' h =>
    have hsortable : Sortable a := by
      rcases hgood a rfl with ⟨qs, hqs⟩ | hgood
      · exact .inr (.inr ⟨qs, .of_eq hqs.pairs⟩)
      · exact hgood
    obtain ⟨hnum, hsound⟩ := orderedValueSort_numbered (hattr a rfl) hsortable h
    refine ⟨⟨?_, fun _ _ heq => nomatch heq⟩, ?_⟩
    · rintro _ ⟨⟩
      exact hnum
    · rintro _ ⟨⟩
      exact hsound

end

def orderedType : AttrType := ⟨none, octetStringOrderingMatch, true, false, false⟩

def repeatedIndex : Values := ⟨3, [['{', '0', '}', 'a'], ['{', '0', '}', 'b'], ['{', '2', '}', 'c']], none, false⟩

end AttrVals
end Slapd
end ReOpenLDAP
