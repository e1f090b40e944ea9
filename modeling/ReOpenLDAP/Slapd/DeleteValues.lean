import ReOpenLDAP.Slapd.OrderedValues

/-!
# Slapd.DeleteValues

`modify_delete_vindex`: the places of the values to delete are located first, then the values are marked, and then the
arrays are compacted.

A result `none` is undefined behaviour or a failed assertion.
-/

namespace ReOpenLDAP
namespace Slapd
namespace AttrVals

open InPlace List Option

/-- The loop that locates the values: the return code of the last search and the places, or the error that it returns. -/
def locateLoop (t : AttrType) (a : Values) (normalized permissive : Bool) :
    Option ModRc → List (List Char) → Option (Except ModRc (Option ModRc × List (Option ℕ)))
  | rc, [] => some (.ok (rc, []))
  | _, v :: vs => do
    match ← attrValfind t a normalized v with
    | .found i => do
      let rest ← locateLoop t a normalized permissive none vs
      some (rest.map fun r => (r.1, some i :: r.2))
    | .missing _ =>
      if permissive then do
        let rest ← locateLoop t a normalized permissive (some .noSuchAttribute) vs
        some (rest.map fun r => (r.1, none :: r.2))
      else some (.error .noSuchAttribute)
    | .invalidSyntax => some (.error .invalidSyntax)

/-- The arrays while values are deleted, with `none` for the mark, and `a_numvals`. -/
structure Marked where
  numvals : ℕ
  vals : List (Option (List Char))
  nvals : Option (List (Option (List Char)))

def Values.marked (a : Values) : Marked := ⟨a.numvals, a.vals.map some, a.nvals.map (List.map some)⟩

def markOne (m : Marked) (i : ℕ) : Option Marked :=
  match m.vals[i]? with
  | none => none
  | some none => some m
  | some (some _) => do
    let vals ← store m.vals i none
    match m.nvals with
    | none => some ⟨m.numvals - 1, vals, none⟩
    | some ns => do
      let ns ← store ns i none
      some ⟨m.numvals - 1, vals, some ns⟩

def markAll (m : Marked) : List (Option ℕ) → Option Marked
  | [] => some m
  | none :: idx => markAll m idx
  | some i :: idx => do
    let m ← markOne m i
    markAll m idx

/-- "compact array skipping dummies". Both arrays have their marks at the same places. -/
def deleteAt (a : Values) (idx : List (Option ℕ)) : Option Values := do
  let m ← markAll a.marked idx
  some { a with
    numvals := m.numvals
    vals := (compact m.vals 0 0).reduceOption
    nvals := m.nvals.map fun ns => (compact ns 0 0).reduceOption }

/-- `modify_delete_vindex`. `hasRule` tells whether there is an equality rule; the state is the attribute of the
description in the entry. -/
def modifyDeleteVindex (t : AttrType) (hasRule : Bool) (attr : Option Values) (values nvalues : Option (List (List Char)))
    (permissive : Bool) : Option (Option ModRc × Option Values) :=
  match values with
  | none => some (if permissive ∨ attr ≠ none then none else some .noSuchAttribute, none)
  | some vals =>
    if !hasRule then some (some .inappropriateMatching, attr)
    else
      match attr with
      | none => some (if permissive then none else some .noSuchAttribute, none)
      | some a => do
        match ← locateLoop t a nvalues.isSome permissive none (nvalues.getD vals) with
        | .error rc => some (some rc, some a)
        | .ok (rc, idx) => do
          let a ← deleteAt a idx
          if a.numvals = 0 then some (rc, none)
          else if t.orderedVal then do
            -- the return code of the sort is dropped
            let r ← orderedValueSort a true
            some (rc, some r.2)
          else some (rc, some a)

section

variable {α : Type} {idx idx' : List (Option ℕ)} {xs : List α}

def clear (idx : List (Option ℕ)) (xs : List α) : List (Option α) :=
  xs.mapIdx fun i x => if some i ∈ idx then none else some x

theorem getElem?_clear (i : ℕ) : (clear idx xs)[i]? = xs[i]?.map fun x => if some i ∈ idx then none else some x :=
  List.getElem?_mapIdx

theorem clear_congr (h : ∀ i, some i ∈ idx ↔ some i ∈ idx') : clear idx xs = clear idx' xs := by
  unfold clear
  simp only [h]

theorem clear_nil : clear [] xs = xs.map some := by
  refine ext_getElem? fun i => ?_
  rw [getElem?_clear, List.getElem?_map]
  simp

theorem clear_set {i : ℕ} (hi : i < xs.length) : (clear idx xs).set i none = clear (idx ++ [some i]) xs := by
  refine ext_getElem? fun j => ?_
  rw [List.getElem?_set, getElem?_clear, getElem?_clear]
  by_cases hj : i = j
  · subst hj
    have hlen : i < (clear idx xs).length := by
      unfold clear
      rw [length_mapIdx]
      exact hi
    rw [if_pos rfl, if_pos hlen, List.getElem?_eq_getElem hi]
    simp
  · rw [if_neg hj]
    have hmem : some j ∈ idx ++ [some i] ↔ some j ∈ idx := by simp [Ne.symm hj]
    simp only [hmem]

theorem dropAt_eq (k : ℕ) :
    dropAt idx k xs = (xs.mapIdx fun i x => if some (k + i) ∈ idx then none else some x).reduceOption := by
  induction xs generalizing k with
  | nil => rfl
  | cons x xs ih =>
    have hnext := ih (k + 1)
    simp only [Nat.add_right_comm k 1, Nat.add_assoc] at hnext
    rw [dropAt, mapIdx_cons, hnext]
    simp only [Nat.add_zero]
    by_cases hk : some k ∈ idx
    · rw [if_pos hk, if_pos hk, reduceOption_cons_of_none]
    · rw [if_neg hk, if_neg hk, reduceOption_cons_of_some]

theorem dropAt_clear : dropAt idx 0 xs = (clear idx xs).reduceOption := by
  rw [dropAt_eq]
  simp only [Nat.zero_add]
  rfl

end

section

variable {a : Values} {idx done : List (Option ℕ)}

def Values.markedAt (a : Values) (idx : List (Option ℕ)) : Marked :=
  ⟨(dropAt idx 0 a.vals).length, clear idx a.vals, a.nvals.map (clear idx)⟩

theorem markedAt_nil (hnum : a.numvals = a.vals.length) : a.markedAt [] = a.marked := by
  have hall : dropAt [] 0 a.vals = a.vals := by rw [dropAt_clear, clear_nil, reduceOption_map_some]
  have hclear : (clear [] : List (List Char) → _) = List.map some := funext fun xs => clear_nil
  rw [Values.markedAt, Values.marked, hall, hclear, hnum]

theorem markOne_spec (hlen : a.norms.length = a.vals.length) {i : ℕ} (hi : i < a.vals.length) :
    markOne (a.markedAt done) i = some (a.markedAt (done ++ [some i])) := by
  have hget : (clear done a.vals)[i]? = some (if some i ∈ done then none else some a.vals[i]) := by
    rw [getElem?_clear, List.getElem?_eq_getElem hi, map_some]
  unfold markOne Values.markedAt
  dsimp only
  rw [hget]
  by_cases hin : some i ∈ done
  · have hsame : ∀ j, some j ∈ done ++ [some i] ↔ some j ∈ done := by
      intro j
      rw [mem_append, mem_singleton]
      exact ⟨fun h => h.elim id fun heq => heq ▸ hin, .inl⟩
    have hclear : (clear (done ++ [some i]) : List (List Char) → _) = clear done := funext fun xs => clear_congr hsame
    rw [if_pos hin, dropAt_clear, dropAt_clear, hclear]
  · have hstore : ∀ xs : List (List Char), i < xs.length →
        store (clear done xs) i none = some (clear (done ++ [some i]) xs) := by
      intro xs hxs
      rw [store_eq (by unfold clear; rw [length_mapIdx]; exact hxs), clear_set hxs]
    have hcount : (dropAt done 0 a.vals).length - 1 = (dropAt (done ++ [some i]) 0 a.vals).length := by
      rw [dropAt_clear, dropAt_clear, ← clear_set hi, reduceOption_set_none (by rw [hget, if_neg hin])]
    rw [if_neg hin]
    simp only [hstore a.vals hi, bind_eq_bind, bind_some, hcount]
    cases hn : a.nvals with
    | none => rfl
    | some ns =>
      have hns : a.norms = ns := by rw [Values.norms, hn, getD_some]
      simp only [map_some, hstore ns (by rw [← hns, hlen]; exact hi), bind_some]

theorem markAll_spec (hlen : a.norms.length = a.vals.length) (hidx : ∀ i, some i ∈ idx → i < a.vals.length) :
    markAll (a.markedAt done) idx = some (a.markedAt (done ++ idx)) := by
  induction idx generalizing done with
  | nil => rw [markAll, List.append_nil]
  | cons j idx ih =>
    have hrest := fun i hi => hidx i (mem_cons_of_mem j hi)
    cases j with
    | none =>
      have hsame : ∀ i, some i ∈ done ++ none :: idx ↔ some i ∈ done ++ idx := by simp
      have hclear : (clear (done ++ none :: idx) : List (List Char) → _) = clear (done ++ idx) :=
        funext fun xs => clear_congr hsame
      rw [markAll, ih hrest, Values.markedAt, Values.markedAt, dropAt_clear, dropAt_clear, hclear]
    | some i =>
      rw [markAll, markOne_spec hlen (hidx i mem_cons_self), bind_eq_bind, bind_some, ih hrest,
        ← append_cons]

theorem deleteAt_eq (hnum : a.numvals = a.vals.length) (hlen : a.norms.length = a.vals.length)
    (hidx : ∀ i, some i ∈ idx → i < a.vals.length) :
    deleteAt a idx = some { a with
      numvals := (dropAt idx 0 a.vals).length, vals := dropAt idx 0 a.vals, nvals := a.nvals.map (dropAt idx 0) } := by
  have hmark := @markAll_spec a idx [] hlen hidx
  rw [markedAt_nil hnum, List.nil_append] at hmark
  have hleft : ∀ xs : List (List Char), (compact (clear idx xs) 0 0).reduceOption = dropAt idx 0 xs := by
    intro xs
    rw [compact_eq, reduceOption_map_some, dropAt_clear]
  unfold deleteAt
  simp only [hmark, Values.markedAt, hleft, Option.map_map, Function.comp_def, bind_eq_bind, bind_some]

end

/-! ## What is located -/

/-- The attribute as its functions keep it: the arrays have one length, and a sorted one can be searched. -/
structure Values.WellFormed (t : AttrType) (a : Values) : Prop where
  numvals : a.numvals = a.vals.length
  norms : a.norms.length = a.vals.length
  probes : a.sorted = true → ∀ cval, Slot.Probes (valueMatch t a cval) a.norms

def place (t : AttrType) (a : Values) (normalized : Bool) (v : List Char) : Option (Option ℕ) :=
  (t.norm normalized v).map (firstMatch t a)

section

variable {t : AttrType} {a : Values} {normalized permissive : Bool} {v : List Char} {vs : List (List Char)} {rc : Option ModRc}

theorem attrValfind_place (hw : a.WellFormed t) :
    match place t a normalized v with
    | none => attrValfind t a normalized v = some .invalidSyntax
    | some none => ∃ slot, attrValfind t a normalized v = some (.missing slot)
    | some (some i) => attrValfind t a normalized v = some (.found i) := by
  cases hn : t.norm normalized v with
  | none =>
    rw [place, hn]
    exact attrValfind_invalid hn
  | some cval =>
    obtain ⟨r, hr, hfinds⟩ := attrValfind_finds (hw.numvals.trans hw.norms.symm) (fun hs => hw.probes hs cval) hn
    rw [place, hn, map_some, hr]
    cases r with
    | found i =>
      rw [show firstMatch t a cval = some i from hfinds]
    | missing slot =>
      rw [hfinds.1]
      exact ⟨slot, rfl⟩
    | invalidSyntax => exact hfinds.elim

def lastRc (t : AttrType) (a : Values) (normalized : Bool) (rc : Option ModRc) (vs : List (List Char)) : Option ModRc :=
  match vs.getLast? with
  | none => rc
  | some v => if place t a normalized v = some none then some .noSuchAttribute else none

theorem lastRc_cons (rc' : Option ModRc)
    (h : rc' = if place t a normalized v = some none then some .noSuchAttribute else none) :
    lastRc t a normalized rc (v :: vs) = lastRc t a normalized rc' vs := by
  unfold lastRc
  cases vs with
  | nil => exact h.symm
  | cons w vs => rw [List.getLast?_cons_cons, List.getLast?_cons]

theorem locateLoop_ok (hw : a.WellFormed t) (hvalid : ∀ v ∈ vs, place t a normalized v ≠ none)
    (hfound : permissive = false → ∀ v ∈ vs, place t a normalized v ≠ some none) :
    locateLoop t a normalized permissive rc vs =
      some (.ok (lastRc t a normalized rc vs, vs.map fun v => (place t a normalized v).getD none)) := by
  induction vs generalizing rc with
  | nil => rfl
  | cons v vs ih =>
    obtain ⟨hv, hvs⟩ := List.forall_mem_cons.mp hvalid
    have hrest := fun rc => @ih rc hvs fun hp w hw => hfound hp w (mem_cons_of_mem v hw)
    have hfind := @attrValfind_place t a normalized v hw
    rw [locateLoop, map_cons]
    cases hplace : place t a normalized v with
    | none => exact absurd hplace hv
    | some found =>
      rw [hplace] at hfind
      cases found with
      | none =>
        obtain ⟨slot, hslot⟩ := hfind
        have hp : permissive = true := by
          cases permissive with
          | true => rfl
          | false => exact absurd hplace (hfound rfl v mem_cons_self)
        rw [lastRc_cons (some .noSuchAttribute) (by rw [if_pos hplace])]
        simp only [hslot, hp, if_true, bind_eq_bind, bind_some]
        rw [← hp, hrest]
        rfl
      | some i =>
        rw [lastRc_cons none (by rw [hplace]; rfl)]
        simp only [show attrValfind t a normalized v = some (.found i) from hfind, bind_eq_bind, bind_some]
        rw [hrest]
        rfl

theorem locateLoop_error (hw : a.WellFormed t)
    (h : ∃ v ∈ vs, place t a normalized v = none ∨ permissive = false ∧ place t a normalized v = some none) :
    ∃ err, locateLoop t a normalized permissive rc vs = some (.error err) := by
  induction vs generalizing rc with
  | nil => simp at h
  | cons v vs ih =>
    have hfind := @attrValfind_place t a normalized v hw
    rw [locateLoop]
    cases hplace : place t a normalized v with
    | none =>
      rw [hplace] at hfind
      simp only [show attrValfind t a normalized v = some .invalidSyntax from hfind, bind_eq_bind, bind_some]
      exact ⟨_, rfl⟩
    | some found =>
      rw [hplace] at hfind
      have htail : ¬ (permissive = false ∧ found = none) →
          ∃ w ∈ vs, place t a normalized w = none ∨ permissive = false ∧ place t a normalized w = some none := by
        intro hnot
        obtain ⟨w, hmem, hbad⟩ := h
        rcases List.mem_cons.mp hmem with rfl | hmem
        · rw [hplace] at hbad
          simp only [reduceCtorEq, Option.some.injEq, false_or] at hbad
          exact absurd hbad hnot
        · exact ⟨w, hmem, hbad⟩
      cases found with
      | none =>
        obtain ⟨slot, hslot⟩ := hfind
        simp only [hslot, bind_eq_bind, bind_some]
        by_cases hp : permissive = true
        · obtain ⟨err, herr⟩ := @ih (some .noSuchAttribute) (htail (by simp [hp]))
          rw [if_pos hp, herr]
          exact ⟨err, rfl⟩
        · rw [if_neg hp]
          exact ⟨_, rfl⟩
      | some i =>
        obtain ⟨err, herr⟩ := @ih none (htail (by simp))
        simp only [show attrValfind t a normalized v = some (.found i) from hfind, bind_eq_bind, bind_some, herr]
        exact ⟨err, rfl⟩

end

def listed (t : AttrType) (a : Values) (normalized : Bool) (vs : List (List Char)) (s : List Char) : Bool :=
  vs.any fun v => (t.norm normalized v).any fun cval => valueMatch t a cval s = .eq

/-- The values that match none of the listed ones, in their order and with their normalized values. -/
def difference (t : AttrType) (a : Values) (normalized : Bool) (vs : List (List Char)) : Values :=
  let mask := a.norms.map fun s => !listed t a normalized vs s
  { a with numvals := (masked mask a.vals).length, vals := masked mask a.vals, nvals := a.nvals.map (masked mask) }

def finish (t : AttrType) (a : Values) : Option (Option Values) :=
  if a.numvals = 0 then some none
  else if t.orderedVal then (orderedValueSort a true).map fun r => some r.2
  else some (some a)

def AllPresent (t : AttrType) (a : Values) (normalized : Bool) (vs : List (List Char)) : Prop :=
  ∀ v ∈ vs, ∃ i, place t a normalized v = some (some i)

def SetDifference (t : AttrType) (a : Values) (normalized : Bool) (vs : List (List Char)) (permissive : Bool)
    (res : Option (Option ModRc × Option Values)) : Prop :=
  (permissive = true ∨ AllPresent t a normalized vs →
      ∃ attr, finish t (difference t a normalized vs) = some attr ∧ res = some (none, attr)) ∧
    (¬ (permissive = true ∨ AllPresent t a normalized vs) → ∃ rc, res = some (some rc, some a))

/-- Each stored value that is to go is the first one that matches some listed value. -/
def FirstOnes (t : AttrType) (a : Values) (normalized : Bool) (vs : List (List Char)) : Prop :=
  ∀ i s, a.norms[i]? = some s → listed t a normalized vs s = true → ∃ v ∈ vs, place t a normalized v = some (some i)

section

variable {α : Type} {idx idx' : List (Option ℕ)}

theorem dropAt_sublist (idx : List (Option ℕ)) (k : ℕ) (xs : List α) : (dropAt idx k xs).Sublist xs := by
  induction xs generalizing k with
  | nil => exact .slnil
  | cons x xs ih =>
    rw [dropAt]
    split_ifs
    · exact (ih (k + 1)).cons x
    · exact (ih (k + 1)).cons_cons x

theorem dropAt_length_le (h : ∀ i, some i ∈ idx → some i ∈ idx') (k : ℕ) (xs : List α) :
    (dropAt idx' k xs).length ≤ (dropAt idx k xs).length := by
  induction xs generalizing k with
  | nil => exact Nat.le_refl _
  | cons x xs ih =>
    have hrest := ih (k + 1)
    rw [dropAt, dropAt]
    by_cases hk : some k ∈ idx
    · rw [if_pos hk, if_pos (h k hk)]
      exact hrest
    · rw [if_neg hk]
      split_ifs
      · exact Nat.le_succ_of_le hrest
      · exact Nat.succ_le_succ hrest

theorem mem_of_dropAt_length (h : ∀ i, some i ∈ idx → some i ∈ idx') (k : ℕ) (xs : List α)
    (hlen : (dropAt idx' k xs).length = (dropAt idx k xs).length) {i : ℕ} (hi : i < xs.length) (hin : some (k + i) ∈ idx') :
    some (k + i) ∈ idx := by
  induction xs generalizing k i with
  | nil => exact absurd hi (Nat.not_lt_zero i)
  | cons x xs ih =>
    have hle := dropAt_length_le h (k + 1) xs
    rw [dropAt, dropAt] at hlen
    by_cases hk : some k ∈ idx
    · rw [if_pos hk, if_pos (h k hk)] at hlen
      cases i with
      | zero => exact hk
      | succ i =>
        rw [Nat.add_comm i, ← Nat.add_assoc] at hin ⊢
        exact ih (k + 1) hlen (Nat.lt_of_succ_lt_succ hi) hin
    · rw [if_neg hk] at hlen
      by_cases hk' : some k ∈ idx'
      · rw [if_pos hk', length_cons] at hlen
        omega
      · rw [if_neg hk', length_cons, length_cons, Nat.succ_inj] at hlen
        cases i with
        | zero => exact absurd hin hk'
        | succ i =>
          rw [Nat.add_comm i, ← Nat.add_assoc] at hin ⊢
          exact ih (k + 1) hlen (Nat.lt_of_succ_lt_succ hi) hin

end

section

variable {t : AttrType} {a : Values} {normalized permissive : Bool} {v : List Char} {vs : List (List Char)}

def matched (t : AttrType) (a : Values) (normalized : Bool) (vs : List (List Char)) : List (Option ℕ) :=
  a.norms.mapIdx fun i s => if listed t a normalized vs s then some i else none

def placed (t : AttrType) (a : Values) (normalized : Bool) (vs : List (List Char)) : List (Option ℕ) :=
  vs.map fun v => (place t a normalized v).getD none

theorem mem_matched {i : ℕ} : some i ∈ matched t a normalized vs ↔
    ∃ s, a.norms[i]? = some s ∧ listed t a normalized vs s = true := by
  unfold matched
  rw [mem_mapIdx]
  constructor
  · rintro ⟨j, hj, heq⟩
    split_ifs at heq with hl
    obtain rfl := Option.some.inj heq
    exact ⟨_, List.getElem?_eq_getElem hj, hl⟩
  · rintro ⟨s, hs, hl⟩
    obtain ⟨hlt, rfl⟩ := List.getElem?_eq_some_iff.mp hs
    exact ⟨i, hlt, if_pos hl⟩

theorem mem_placed {i : ℕ} : some i ∈ placed t a normalized vs ↔ ∃ v ∈ vs, place t a normalized v = some (some i) := by
  unfold placed
  rw [List.mem_map]
  refine exists_congr fun v => and_congr_right fun _ => ?_
  cases place t a normalized v <;> simp

theorem placed_matched {i : ℕ} (h : some i ∈ placed t a normalized vs) : some i ∈ matched t a normalized vs := by
  obtain ⟨v, hv, hplace⟩ := mem_placed.mp h
  obtain ⟨cval, hnorm, hfirst⟩ := Option.map_eq_some_iff.mp hplace
  obtain ⟨hlt, heq, -⟩ := List.findIdx?_eq_some_iff_getElem.mp hfirst
  refine mem_matched.mpr ⟨_, List.getElem?_eq_getElem hlt, List.any_eq_true.mpr ⟨v, hv, ?_⟩⟩
  rw [hnorm, any_some]
  exact heq

theorem firstOnes_iff : FirstOnes t a normalized vs ↔
    ∀ i, some i ∈ matched t a normalized vs → some i ∈ placed t a normalized vs := by
  constructor
  · intro h i hi
    obtain ⟨s, hs, hl⟩ := mem_matched.mp hi
    exact mem_placed.mpr (h i s hs hl)
  · exact fun h i s hs hl => mem_placed.mp (h i (mem_matched.mpr ⟨s, hs, hl⟩))

theorem masked_eq_dropAt {xs : List (List Char)} (hlen : a.norms.length = xs.length) :
    masked (a.norms.map fun s => !listed t a normalized vs s) xs = dropAt (matched t a normalized vs) 0 xs := by
  have hmask : (a.norms.map fun s => !listed t a normalized vs s) = (a.norms.map (listed t a normalized vs)).map not := by
    rw [List.map_map]
    rfl
  have hidx : ∀ i, some (0 + i) ∈ matched t a normalized vs ↔ (a.norms.map (listed t a normalized vs))[i]? = some true := by
    intro i
    rw [Nat.zero_add, mem_matched, List.getElem?_map, map_eq_some_iff]
  rw [hmask, dropAt_masked (by rw [length_map, hlen]) hidx]

def Values.without (a : Values) (idx : List (Option ℕ)) : Values :=
  { a with numvals := (dropAt idx 0 a.vals).length, vals := dropAt idx 0 a.vals, nvals := a.nvals.map (dropAt idx 0) }

theorem without_norms (a : Values) (idx : List (Option ℕ)) : (a.without idx).norms = dropAt idx 0 a.norms := by
  unfold Values.without Values.norms
  dsimp only
  cases a.nvals <;> rfl

theorem difference_eq (hw : a.WellFormed t) : difference t a normalized vs = a.without (matched t a normalized vs) := by
  have hnvals : (a.nvals.map (masked (a.norms.map fun s => !listed t a normalized vs s))) =
      a.nvals.map (dropAt (matched t a normalized vs) 0) := by
    cases hn : a.nvals with
    | none => rfl
    | some ns =>
      have hns : a.norms = ns := by rw [Values.norms, hn, getD_some]
      rw [map_some, map_some, masked_eq_dropAt (by rw [hns])]
  unfold difference Values.without
  dsimp only
  rw [hnvals, masked_eq_dropAt hw.norms]

theorem modifyDelete_run (hw : a.WellFormed t) {vals : List (List Char)} {nvalues : Option (List (List Char))}
    (hvs : vs = nvalues.getD vals) (hnorm : normalized = nvalues.isSome) (hvalid : ∀ v ∈ vs, place t a normalized v ≠ none)
    (hfound : permissive = false → ∀ v ∈ vs, place t a normalized v ≠ some none) :
    modifyDeleteVindex t true (some a) (some vals) nvalues permissive =
      (finish t (a.without (placed t a normalized vs))).map fun attr => (lastRc t a normalized none vs, attr) := by
  have hin : ∀ i, some i ∈ placed t a normalized vs → i < a.vals.length := by
    intro i hi
    obtain ⟨s, hs, -⟩ := mem_matched.mp (placed_matched hi)
    exact hw.norms ▸ (List.getElem?_eq_some_iff.mp hs).1
  have hdelete := deleteAt_eq hw.numvals hw.norms hin
  have hloop := @locateLoop_ok t a normalized permissive vs none hw hvalid hfound
  subst hvs hnorm
  unfold modifyDeleteVindex finish
  simp only [Bool.not_true, Bool.false_eq_true, if_false, hloop, bind_eq_bind, bind_some]
  rw [← placed, hdelete]
  simp only [bind_some]
  change (if (a.without _).numvals = 0 then _ else _) = _
  split_ifs
  · rfl
  · rw [Option.map_map]
    exact Option.map_eq_bind.symm
  · rfl

def Refused (t : AttrType) (a : Values) (normalized permissive : Bool) (v : List Char) : Prop :=
  place t a normalized v = none ∨ permissive = false ∧ place t a normalized v = some none

theorem modifyDelete_refused (hw : a.WellFormed t) {vals : List (List Char)} {nvalues : Option (List (List Char))}
    (hvs : vs = nvalues.getD vals) (hnorm : normalized = nvalues.isSome) (h : ∃ v ∈ vs, Refused t a normalized permissive v) :
    ∃ rc, modifyDeleteVindex t true (some a) (some vals) nvalues permissive = some (some rc, some a) := by
  obtain ⟨err, herr⟩ := @locateLoop_error t a normalized permissive vs none hw h
  subst hvs hnorm
  refine ⟨err, ?_⟩
  unfold modifyDeleteVindex
  simp only [Bool.not_true, Bool.false_eq_true, if_false, herr, bind_eq_bind, bind_some]

theorem modifyDelete_cases (hw : a.WellFormed t) (vals : List (List Char)) (nvalues : Option (List (List Char))) :
    (∃ rc, modifyDeleteVindex t true (some a) (some vals) nvalues permissive = some (some rc, some a)) ∨
      ∃ idx rc, (∀ i, some i ∈ idx → i < a.vals.length) ∧
        modifyDeleteVindex t true (some a) (some vals) nvalues permissive =
          (finish t (a.without idx)).map fun attr => (rc, attr) := by
  by_cases h : ∃ v ∈ nvalues.getD vals, Refused t a nvalues.isSome permissive v
  · exact .inl (modifyDelete_refused hw rfl rfl h)
  · refine .inr ⟨_, _, fun i hi => ?_, modifyDelete_run hw rfl rfl (fun v hv hnone => h ⟨v, hv, .inl hnone⟩)
      fun hp v hv hnone => h ⟨v, hv, .inr ⟨hp, hnone⟩⟩⟩
    obtain ⟨s, hs, -⟩ := mem_matched.mp (placed_matched hi)
    exact hw.norms ▸ (List.getElem?_eq_some_iff.mp hs).1

theorem finish_numvals {b : Values} {attr : Option Values} (h : finish t b = some attr) :
    b.numvals = (attr.map Values.numvals).getD 0 := by
  unfold finish at h
  split_ifs at h with h1 h2
  · obtain rfl := Option.some.inj h
    exact h1
  · obtain ⟨r, hr, rfl⟩ := Option.map_eq_some_iff.mp h
    exact (orderedValueSort_numvals hr).symm
  · obtain rfl := Option.some.inj h
    rfl

theorem without_numvals_iff (hw : a.WellFormed t) :
    (a.without (placed t a normalized vs)).numvals = (a.without (matched t a normalized vs)).numvals ↔
      FirstOnes t a normalized vs := by
  have hsub : ∀ i, some i ∈ placed t a normalized vs → some i ∈ matched t a normalized vs := fun i => placed_matched
  rw [firstOnes_iff]
  constructor
  · intro hlen i hi
    obtain ⟨s, hs, -⟩ := mem_matched.mp hi
    have hlt : i < a.vals.length := hw.norms ▸ (List.getElem?_eq_some_iff.mp hs).1
    have hdropped := mem_of_dropAt_length hsub 0 a.vals hlen.symm hlt
    rw [Nat.zero_add] at hdropped
    exact hdropped hi
  · intro h
    exact Nat.le_antisymm (dropAt_length_le h 0 a.vals) (dropAt_length_le hsub 0 a.vals)

theorem without_congr (h : ∀ i, some i ∈ matched t a normalized vs ↔ some i ∈ placed t a normalized vs) :
    a.without (placed t a normalized vs) = a.without (matched t a normalized vs) := by
  have hdrop : ∀ xs : List (List Char), dropAt (placed t a normalized vs) 0 xs = dropAt (matched t a normalized vs) 0 xs := by
    intro xs
    rw [dropAt_clear, dropAt_clear, clear_congr h]
  have hfun : (dropAt (placed t a normalized vs) 0 : List (List Char) → _) = dropAt (matched t a normalized vs) 0 :=
    funext hdrop
  rw [Values.without, Values.without, hfun]

def LastPresent (t : AttrType) (a : Values) (normalized : Bool) (vs : List (List Char)) : Prop :=
  ∀ v, vs.getLast? = some v → place t a normalized v ≠ some none

theorem lastRc_none : lastRc t a normalized none vs = none ↔ LastPresent t a normalized vs := by
  unfold lastRc LastPresent
  cases vs.getLast? with
  | none => simp
  | some v =>
    by_cases h : place t a normalized v = some none <;> simp [h]

end

def exactType : AttrType := ⟨none, octetStringOrderingMatch, false, false, false⟩

/-- The attribute with the values `a` and `c`. -/
def twoValues : Values := ⟨2, [['a'], ['c']], none, false⟩

theorem twoValues_wellFormed : twoValues.WellFormed exactType := ⟨rfl, rfl, fun h => by cases h⟩

end AttrVals
end Slapd
end ReOpenLDAP
