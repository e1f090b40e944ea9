import ReOpenLDAP.Lib.Run
import ReOpenLDAP.Slapd.DeleteValues

/-!
# Slapd.SortedValues

Attributes that are flagged as sorted, over any sequence of calls.
-/

namespace ReOpenLDAP
namespace Slapd
namespace AttrVals

open InPlace Slot List Option

def Increasing (t : AttrType) (ns : List (List Char)) : Prop := ns.Pairwise fun s s' => t.smr_match s s' = .lt

def Distinct (t : AttrType) (ns : List (List Char)) : Prop :=
  ns.Pairwise fun s s' => t.smr_match s s' ≠ .eq ∧ t.smr_match s' s ≠ .eq

instance (t : AttrType) (ns : List (List Char)) : Decidable (Increasing t ns) := by
  unfold Increasing
  infer_instance

instance (t : AttrType) (ns : List (List Char)) : Decidable (Distinct t ns) := by
  unfold Distinct
  infer_instance

/-- What the calls keep. `R` is any relation of a value and its normalized value. -/
structure SortedOk (R : List Char → List Char → Prop) (t : AttrType) (a : Values) : Prop where
  sorted : a.sorted = true
  numvals : a.numvals = a.vals.length
  aligned : List.Forall₂ R a.vals a.norms
  increasing : Increasing t a.norms

section

variable {R : List Char → List Char → Prop} {t : AttrType} {a : Values}

theorem SortedOk.length (h : SortedOk R t a) : a.norms.length = a.vals.length := h.aligned.length_eq.symm

theorem Increasing.probes [Std.TransCmp t.smr_match] {ns : List (List Char)} (h : Increasing t ns) (cval : List Char) :
    Probes (fun s => t.smr_match s cval) ns := by
  refine List.Pairwise.imp (fun {s s'} hlt => ?_) h
  cases hs' : t.smr_match s' cval with
  | lt => exact .inl (Std.TransCmp.lt_trans hlt hs')
  | eq => exact .inl (Std.TransCmp.lt_of_lt_of_eq hlt hs')
  | gt => exact .inr hs'

theorem SortedOk.wellFormed [Std.TransCmp t.smr_match] (h : SortedOk R t a) : a.WellFormed t := by
  refine ⟨h.numvals, h.length, fun _ cval => ?_⟩
  have hmatch : valueMatch t a cval = fun s => t.smr_match s cval := funext fun s => if_pos h.sorted
  rw [hmatch]
  exact h.increasing.probes cval

theorem Increasing.insert [Std.TransCmp t.smr_match] {ns : List (List Char)} {n : List Char} {slot : ℕ} (h : Increasing t ns)
    (hs : Splits (fun s => t.smr_match s n) ns slot) : Increasing t (ns.take slot ++ n :: ns.drop slot) := by
  have hsplit := h
  rw [Increasing, ← take_append_drop slot ns, pairwise_append] at hsplit
  obtain ⟨htake, hdrop, hcross⟩ := hsplit
  refine List.pairwise_append.mpr ⟨htake, List.pairwise_cons.mpr ⟨fun s hs' => ?_, hdrop⟩, fun s hs' s' hmem => ?_⟩
  · exact Std.OrientedCmp.lt_of_gt (hs.behind s hs')
  · rcases List.mem_cons.mp hmem with rfl | hmem
    · exact hs.before s hs'
    · exact hcross s hs' s' hmem

theorem forall₂_insert {xs ys : List (List Char)} {x y : List Char} (h : List.Forall₂ R xs ys) (hxy : R x y) (slot : ℕ) :
    List.Forall₂ R (xs.take slot ++ x :: xs.drop slot) (ys.take slot ++ y :: ys.drop slot) :=
  rel_append (forall₂_take slot h) (.cons hxy (forall₂_drop slot h))

theorem insertVal_at {vals : List (List Char)} {slot : ℕ} (h : slot ≤ vals.length) (v : List Char) :
    insertVal vals vals.length slot v = some (vals.take slot ++ v :: vals.drop slot) := by
  have hins := insertVal_spec (vals.take slot) (vals.drop slot) v
  rw [take_append_drop, length_take, Nat.min_eq_left h] at hins
  exact hins

structure Inserted (a a' : Values) (slot : ℕ) (val nval : List Char) : Prop where
  vals : a'.vals = a.vals.take slot ++ val :: a.vals.drop slot
  norms : a'.norms = a.norms.take slot ++ nval :: a.norms.drop slot
  numvals : a'.numvals = a.numvals + 1
  sorted : a'.sorted = a.sorted
  nvals : a'.nvals.isSome = a.nvals.isSome

theorem insert_spec (hnum : a.numvals = a.vals.length) (hlen : a.norms.length = a.vals.length) {slot : ℕ}
    (hslot : slot ≤ a.norms.length) {val nval : List Char} (halias : a.nvals = none → val = nval) :
    ∃ a', a.insert slot val nval = some a' ∧ Inserted a a' slot val nval := by
  have hvals := @insertVal_at a.vals slot (hlen ▸ hslot) val
  unfold Values.insert
  cases hn : a.nvals with
  | none =>
    have hnorms : a.norms = a.vals := by rw [Values.norms, hn, getD_none]
    obtain rfl := halias hn
    rw [hnum]
    simp only [hvals, bind_eq_bind, bind_some]
    refine ⟨_, rfl, rfl, ?_, congrArg (· + 1) hnum.symm, rfl, by rw [hn]⟩
    rw [hnorms, Values.norms]
    exact getD_none
  | some ns =>
    have hnorms : a.norms = ns := by rw [Values.norms, hn, getD_some]
    have hnvals := insertVal_at (hnorms ▸ hslot) nval
    rw [← hnorms, hlen] at hnvals
    rw [hnum, ← hnorms]
    simp only [hvals, hnvals, bind_eq_bind, bind_some]
    exact ⟨_, rfl, rfl, getD_some, congrArg (· + 1) hnum.symm, rfl, by rw [hn]; rfl⟩

/-- The values are the ones that `attr_valadd` can add. -/
structure Addable (R : List Char → List Char → Prop) (t : AttrType) (norms vals nvals : List (List Char)) : Prop where
  aligned : List.Forall₂ R vals nvals
  distinct : Distinct t nvals
  fresh : ∀ s ∈ norms, ∀ n ∈ nvals, t.smr_match s n ≠ .eq

theorem SortedOk.inserted [Std.TransCmp t.smr_match] {a' : Values} {slot : ℕ} {val nval : List Char} (h : SortedOk R t a)
    (hins : Inserted a a' slot val nval) (hR : R val nval) (hs : Splits (fun s => t.smr_match s nval) a.norms slot) :
    SortedOk R t a' where
  sorted := hins.sorted.trans h.sorted
  numvals := by
    rw [hins.numvals, h.numvals, hins.vals]
    simp only [length_append, length_cons, length_take, length_drop]
    omega
  aligned := by
    rw [hins.vals, hins.norms]
    exact forall₂_insert h.aligned hR slot
  increasing := by
    rw [hins.norms]
    exact h.increasing.insert hs

theorem SortedOk.slot [Std.TransCmp t.smr_match] (h : SortedOk R t a) {nval : List Char}
    (hfresh : ∀ s ∈ a.norms, t.smr_match s nval ≠ .eq) :
    ∃ slot, attrValfind t a true nval = some (.missing slot) ∧ Splits (fun s => t.smr_match s nval) a.norms slot := by
  have hw := h.wellFormed
  have hmatch : valueMatch t a nval = fun s => t.smr_match s nval := funext fun s => if_pos h.sorted
  obtain ⟨r, hr, hfinds⟩ := @attrValfind_finds t a true nval nval (hw.numvals.trans hw.norms.symm)
    (fun hs => hw.probes hs nval) rfl
  cases r with
  | found i =>
    obtain ⟨hlt, heq, -⟩ := List.findIdx?_eq_some_iff_getElem.mp hfinds
    rw [hmatch, decide_eq_true_eq] at heq
    exact absurd heq (hfresh _ (getElem_mem hlt))
  | missing slot => exact ⟨slot, hr, hmatch ▸ hfinds.2 h.sorted⟩
  | invalidSyntax => exact hfinds.elim

theorem addSorted_sorted [Std.TransCmp t.smr_match] {vals nvals : List (List Char)} (h : SortedOk R t a)
    (hadd : Addable R t a.norms vals nvals) (halias : a.nvals = none → vals = nvals) :
    ∃ a', addSorted t a (vals.zip nvals) = some (none, a') ∧ SortedOk R t a' := by
  obtain ⟨hR, hdistinct, hfresh⟩ := hadd
  induction hR generalizing a with
  | nil => exact ⟨a, rfl, h⟩
  | @cons val nval vals nvals hR hRs ih =>
    obtain ⟨hhead, hrest⟩ := List.pairwise_cons.mp hdistinct
    obtain ⟨slot, hfind, hsplits⟩ := h.slot fun s hs => hfresh s hs nval mem_cons_self
    obtain ⟨a1, hins, hone⟩ := insert_spec h.numvals h.length hsplits.le fun hn => (List.cons.inj (halias hn)).1
    have hfresh' : ∀ s ∈ a1.norms, ∀ n ∈ nvals, t.smr_match s n ≠ .eq := by
      intro s hs n hn
      rw [hone.norms] at hs
      rcases List.mem_append.mp hs with hs | hs
      · exact hfresh s (mem_of_mem_take hs) n (mem_cons_of_mem nval hn)
      rcases List.mem_cons.mp hs with rfl | hs
      · exact (hhead n hn).1
      · exact hfresh s (mem_of_mem_drop hs) n (mem_cons_of_mem nval hn)
    have halias' : a1.nvals = none → vals = nvals := by
      intro hn
      have hnone : a.nvals.isSome = false := by rw [← hone.nvals, hn, isSome_none]
      exact (List.cons.inj (halias (Option.not_isSome_iff_eq_none.mp (by simp [hnone])))).2
    obtain ⟨a', ha', hok⟩ := ih (h.inserted hone hR hsplits) halias' hrest hfresh'
    refine ⟨a', ?_, hok⟩
    rw [zip_cons_cons, addSorted]
    simp only [hfind, hins, bind_eq_bind, bind_some]
    exact ha'

/-- What `attr_merge` asserts of the normalized values. -/
def Forms (a : Values) (nvals : Option (List (List Char))) : Prop :=
  (nvals = none ∧ a.nvals = none) ∨ (nvals ≠ none ∧ (a.vals = [] ∨ a.nvals ≠ none))

theorem SortedOk.norms_nil (h : SortedOk R t a) (hzero : a.numvals = 0) : a.vals = [] ∧ a.norms = [] := by
  have hvals : a.vals = [] := List.length_eq_zero_iff.mp (h.numvals.symm.trans hzero)
  exact ⟨hvals, List.length_eq_zero_iff.mp (by rw [h.length, hvals, length_nil])⟩

theorem attrValadd_sorted [Std.TransCmp t.smr_match] {vals : List (List Char)} {nvals : Option (List (List Char))}
    (h : SortedOk R t a) (hforms : Forms a nvals) (hadd : Addable R t a.norms vals (nvals.getD vals))
    (horder : a.numvals = 0 → Increasing t (nvals.getD vals)) :
    ∃ a', attrValadd t a vals nvals = some (none, a') ∧ SortedOk R t a' := by
  have hlen : (nvals.getD vals).length = vals.length := hadd.aligned.length_eq.symm
  have hdefined : ¬ ((nvals.getD vals).length ≠ vals.length ∨ (a.nvals = none ∧ a.vals ≠ [] ∧ nvals ≠ none)) := by
    rintro (hne | ⟨hnone, hvals, hsome⟩)
    · exact hne hlen
    · rcases hforms with ⟨hnone', -⟩ | ⟨-, hnil | hsome'⟩
      · exact hsome hnone'
      · exact hvals hnil
      · exact hsome' hnone
  unfold attrValadd
  dsimp only
  rw [if_neg hdefined]
  by_cases hzero : a.numvals = 0
  · obtain ⟨hvals, hnorms⟩ := h.norms_nil hzero
    have hnorms' : (⟨a.numvals + vals.length, a.vals ++ vals, (nvals.map fun _ => a.nvals.getD []).map (· ++ nvals.getD vals),
        a.sorted⟩ : Values).norms = nvals.getD vals := by
      cases nvals with
      | none => simp [Values.norms, hvals]
      | some ns =>
        have hnil : a.nvals.getD [] = [] := by
          cases hn : a.nvals with
          | none => rfl
          | some ns' => rwa [Values.norms, hn, getD_some] at hnorms
        simp [Values.norms, hnil]
    rw [if_neg fun hc => hc.2 hzero]
    refine ⟨_, rfl, h.sorted, ?_, ?_, ?_⟩
    · rw [hzero, hvals, length_append, length_nil]
    · rw [hnorms', hvals]
      exact hadd.aligned
    · rw [hnorms']
      exact horder hzero
  · have hvals : a.vals ≠ [] := fun hnil => hzero (by rw [h.numvals, hnil, length_nil])
    have hsame : (nvals.map fun _ => a.nvals.getD []) = a.nvals ∧ (a.nvals = none → vals = nvals.getD vals) := by
      rcases hforms with ⟨hnone, hnone'⟩ | ⟨hsome, hnil | hsome'⟩
      · rw [hnone, hnone']
        exact ⟨rfl, fun _ => rfl⟩
      · exact absurd hnil hvals
      · obtain ⟨ns, rfl⟩ := Option.ne_none_iff_exists'.mp hsome
        obtain ⟨ns', hns'⟩ := Option.ne_none_iff_exists'.mp hsome'
        rw [hns']
        exact ⟨rfl, fun hn => by cases hn⟩
    rw [if_pos ⟨h.sorted, hzero⟩, hsame.1]
    exact addSorted_sorted h hadd hsame.2

theorem attrAlloc_sorted (ht : t.sortedVal = true) : SortedOk R t (attrAlloc t) := ⟨ht, rfl, .nil, .nil⟩

theorem attrMerge_sorted [Std.TransCmp t.smr_match] (ht : t.sortedVal = true) {righteous : Bool} {attr : Option Values}
    {vals : List (List Char)} {nvals : Option (List (List Char))} {rc : Option ModRc} {a' : Values}
    (h : ∀ a ∈ attr, SortedOk R t a) (hadd : Addable R t ((attr.map Values.norms).getD []) vals (nvals.getD vals))
    (horder : (attr.map Values.numvals).getD 0 = 0 → Increasing t (nvals.getD vals))
    (hrun : attrMerge t righteous attr vals nvals = some (rc, a')) : rc = none ∧ SortedOk R t a' := by
  have hresult : ∀ {r : Option (Option ModRc × Values)}, (∃ b, r = some (none, b) ∧ SortedOk R t b) → r = some (rc, a') →
      rc = none ∧ SortedOk R t a' := by
    rintro r ⟨b, rfl, hb⟩ hr
    cases hr
    exact ⟨rfl, hb⟩
  cases attr with
  | none =>
    have hforms : Forms (attrAlloc t) nvals := by
      by_cases hn : nvals = none
      · exact .inl ⟨hn, rfl⟩
      · exact .inr ⟨hn, .inl rfl⟩
    exact hresult (attrValadd_sorted (attrAlloc_sorted ht) hforms hadd horder) hrun
  | some a =>
    unfold attrMerge at hrun
    dsimp only at hrun
    split_ifs at hrun with hright hforms hforms
    · have hsame : nvals.getD vals = vals := by rw [hright.2.2.2, getD_some]
      rw [hsame] at hadd horder
      exact hresult (attrValadd_sorted (h a rfl) hforms hadd horder) hrun
    · exact hresult (attrValadd_sorted (h a rfl) hforms hadd horder) hrun

/-! ## Values that go -/

theorem forall₂_dropAt {xs ys : List (List Char)} (h : List.Forall₂ R xs ys) (idx : List (Option ℕ)) (k : ℕ) :
    List.Forall₂ R (dropAt idx k xs) (dropAt idx k ys) := by
  induction h generalizing k with
  | nil => exact .nil
  | cons hxy _ ih =>
    rw [dropAt, dropAt]
    split_ifs
    · exact ih (k + 1)
    · exact .cons hxy (ih (k + 1))

theorem SortedOk.without (h : SortedOk R t a) (idx : List (Option ℕ)) : SortedOk R t (a.without idx) where
  sorted := h.sorted
  numvals := rfl
  aligned := by
    rw [without_norms]
    exact forall₂_dropAt h.aligned idx 0
  increasing := by
    rw [without_norms]
    exact List.Pairwise.sublist (dropAt_sublist idx 0 a.norms) h.increasing

theorem modifyDelete_sorted [Std.TransCmp t.smr_match] (ht : t.orderedVal = false) {attr attr' : Option Values}
    {values nvalues : Option (List (List Char))} {permissive : Bool} {rc : Option ModRc} (h : ∀ a ∈ attr, SortedOk R t a)
    (hrun : modifyDeleteVindex t true attr values nvalues permissive = some (rc, attr')) : ∀ a ∈ attr', SortedOk R t a := by
  have hnone : ∀ {r : Option ModRc}, some (r, none) = some (rc, attr') → ∀ a ∈ attr', SortedOk R t a := by
    intro r hr
    obtain ⟨-, rfl⟩ := Prod.mk.inj (Option.some.inj hr)
    exact fun a ha => nomatch ha
  cases values with
  | none => exact hnone hrun
  | some vals =>
    cases attr with
    | none => exact hnone hrun
    | some a =>
      rcases modifyDelete_cases (h a rfl).wellFormed vals nvalues with ⟨err, herr⟩ | ⟨idx, rc', -, hfin⟩
      · rw [herr] at hrun
        obtain ⟨-, rfl⟩ := Prod.mk.inj (Option.some.inj hrun)
        exact h
      · rw [hfin, finish] at hrun
        split_ifs at hrun with hzero hord
        · exact hnone hrun
        · rw [ht] at hord
          cases hord
        · obtain ⟨-, rfl⟩ := Prod.mk.inj (Option.some.inj hrun)
          rintro _ ⟨⟩
          exact (h a rfl).without idx

end

inductive Call where
  | attrMerge (righteous : Bool) (vals : List (List Char)) (nvals : Option (List (List Char)))
  | attrValadd (vals : List (List Char)) (nvals : Option (List (List Char)))
  | modifyDelete (values nvalues : Option (List (List Char))) (permissive : Bool)

def Call.added : Call → Option (List (List Char) × List (List Char))
  | .attrMerge _ vals nvals => some (vals, nvals.getD vals)
  | .attrValadd vals nvals => some (vals, nvals.getD vals)
  | .modifyDelete _ _ _ => none

def normsOf (attr : Option Values) : List (List Char) := (attr.map Values.norms).getD []

/-- A call that returns. What is added are new values, each with its normalized one. -/
inductive SortedStep (R : List Char → List Char → Prop) (t : AttrType) : Option Values → Call → Option Values → Prop where
  | attrMerge {attr : Option Values} {righteous : Bool} {vals : List (List Char)} {nvals : Option (List (List Char))}
      {rc : Option ModRc} {a' : Values} (hadd : Addable R t (normsOf attr) vals (nvals.getD vals))
      (hrun : attrMerge t righteous attr vals nvals = some (rc, a')) :
      SortedStep R t attr (.attrMerge righteous vals nvals) (some a')
  | attrValadd {a : Values} {vals : List (List Char)} {nvals : Option (List (List Char))}
      {rc : Option ModRc} {a' : Values} (hadd : Addable R t a.norms vals (nvals.getD vals)) (hforms : Forms a nvals)
      (hrun : attrValadd t a vals nvals = some (rc, a')) : SortedStep R t (some a) (.attrValadd vals nvals) (some a')
  | modifyDelete {attr attr' : Option Values} {values nvalues : Option (List (List Char))} {permissive : Bool}
      {rc : Option ModRc} (hrun : modifyDeleteVindex t true attr values nvalues permissive = some (rc, attr')) :
      SortedStep R t attr (.modifyDelete values nvalues permissive) attr'

/-- Where an attribute has no values, the first ones are handed over in increasing order. -/
def InOrder (t : AttrType) (attr : Option Values) (c : Call) : Prop :=
  normsOf attr = [] → ∀ p ∈ c.added, Increasing t p.2

def Searchable (t : AttrType) (a : Values) : Prop :=
  ∀ normalized val cval, t.norm normalized val = some cval →
    (∃ i s, attrValfind t a normalized val = some (.found i) ∧ a.norms[i]? = some s ∧ t.smr_match s cval = .eq) ∨
      ∃ slot, attrValfind t a normalized val = some (.missing slot) ∧ Splits (fun s => t.smr_match s cval) a.norms slot

section

variable {R : List Char → List Char → Prop} {t : AttrType}

theorem SortedOk.searchable [Std.TransCmp t.smr_match] {a : Values} (h : SortedOk R t a) : Searchable t a := by
  intro normalized val cval hn
  have hw := h.wellFormed
  have hmatch : valueMatch t a cval = fun s => t.smr_match s cval := funext fun s => if_pos h.sorted
  obtain ⟨r, hr, hfinds⟩ := attrValfind_finds (hw.numvals.trans hw.norms.symm) (fun hs => hw.probes hs cval) hn
  cases r with
  | found i =>
    obtain ⟨hlt, heq, -⟩ := List.findIdx?_eq_some_iff_getElem.mp hfinds
    rw [hmatch, decide_eq_true_eq] at heq
    exact .inl ⟨i, _, hr, List.getElem?_eq_getElem hlt, heq⟩
  | missing slot => exact .inr ⟨slot, hr, hmatch ▸ hfinds.2 h.sorted⟩
  | invalidSyntax => exact hfinds.elim

theorem SortedOk.norms_length {a : Values} (h : SortedOk R t a) : a.norms.length = a.numvals := h.length.trans h.numvals.symm

theorem sortedStep_sorted [Std.TransCmp t.smr_match] (hsorted : t.sortedVal = true) (hordered : t.orderedVal = false)
    {attr attr' : Option Values} {c : Call} (h : ∀ a ∈ attr, SortedOk R t a) (hstep : SortedStep R t attr c attr')
    (horder : InOrder t attr c) : ∀ a ∈ attr', SortedOk R t a := by
  cases hstep with
  | @attrMerge _ righteous vals nvals rc a' hadd hrun =>
    have hfirst : (attr.map Values.numvals).getD 0 = 0 → Increasing t (nvals.getD vals) := by
      intro hzero
      refine horder ?_ _ rfl
      cases attr with
      | none => rfl
      | some a => exact List.length_eq_zero_iff.mp ((h a rfl).norms_length.trans hzero)
    rintro _ ⟨⟩
    exact (attrMerge_sorted hsorted h hadd hfirst hrun).2
  | @attrValadd a vals nvals rc a' hadd hforms hrun =>
    have hok := h a rfl
    obtain ⟨b, hb, hsort⟩ := attrValadd_sorted hok hforms hadd fun hzero =>
      horder (List.length_eq_zero_iff.mp (hok.norms_length.trans hzero)) _ rfl
    rw [hb] at hrun
    obtain ⟨-, rfl⟩ := Prod.mk.inj (Option.some.inj hrun)
    rintro _ ⟨⟩
    exact hsort
  | modifyDelete hrun => exact modifyDelete_sorted hordered h hrun

/-- Sorted values stay sorted and searchable. A type that can be sorted is not X-ORDERED: `olcSortVals` refuses those. -/
theorem sorted_values_run [Std.TransCmp t.smr_match] (hsorted : t.sortedVal = true) (hordered : t.orderedVal = false)
    {attr attr' : Option Values} {calls : List Call}
    (h : Steps (fun s c s' => SortedStep R t s c s' ∧ InOrder t s c) attr calls attr') (hattr : ∀ a ∈ attr, SortedOk R t a) :
    ∀ a ∈ attr', SortedOk R t a ∧ Searchable t a := by
  have hrun := h.invariant (fun s => ∀ a ∈ s, SortedOk R t a)
    (fun s c s' hs hstep => sortedStep_sorted hsorted hordered hs hstep.1 hstep.2) hattr
  exact fun a ha => ⟨hrun a ha, (hrun a ha).searchable⟩

end

theorem octetString_lt {v w : List Char} : octetStringOrderingMatch v w = .lt ↔ v < w := by
  unfold octetStringOrderingMatch
  split_ifs with h h' <;> simp_all

theorem octetString_gt {v w : List Char} : octetStringOrderingMatch v w = .gt ↔ w < v := by
  unfold octetStringOrderingMatch
  split_ifs with h h'
  · simp [not_lt_of_gt h]
  · simp [h']
  · simp [h']

instance : Std.TransCmp octetStringOrderingMatch where
  eq_swap := by
    intro v w
    rcases lt_trichotomy v w with h | rfl | h
    · rw [octetString_lt.mpr h, octetString_gt.mpr h]
      rfl
    · simp [octetStringOrderingMatch]
    · rw [octetString_lt.mpr h, octetString_gt.mpr h]
      rfl
  isLE_trans := by
    intro u v w huv hvw
    have hle : ∀ {x y : List Char}, (octetStringOrderingMatch x y).isLE = true ↔ x ≤ y := by
      intro x y
      rw [← not_lt, ← octetString_gt]
      cases octetStringOrderingMatch x y <;> simp
    exact hle.mpr ((hle.mp huv).trans (hle.mp hvw))

def sortedType : AttrType := ⟨none, octetStringOrderingMatch, false, false, true⟩

instance : Std.TransCmp sortedType.smr_match := inferInstanceAs (Std.TransCmp octetStringOrderingMatch)

theorem sortedType_merge :
    attrMerge sortedType false none [['a'], ['c']] none = some (none, ⟨2, [['a'], ['c']], none, true⟩) := rfl

theorem sortedType_find : attrValfind sortedType ⟨2, [['a'], ['c']], none, true⟩ true ['b'] = some (.missing 1) := by
  have hloop : slotLoop (valueMatch sortedType ⟨2, [['a'], ['c']], none, true⟩ ['b']) [['a'], ['c']] 0 2 = some (false, 1) := by
    rw [slotLoop.eq_def]
    simp only [slotLoop.eq_def _ _ 0 1]
    decide
  exact congrArg (Option.map Valfind.ofPair) hloop

theorem sortedType_insert : attrMerge sortedType false (some ⟨2, [['a'], ['c']], none, true⟩) [['b']] none =
    some (none, ⟨3, [['a'], ['b'], ['c']], none, true⟩) := by
  have hadd : attrMerge sortedType false (some ⟨2, [['a'], ['c']], none, true⟩) [['b']] none =
      addSorted sortedType ⟨2, [['a'], ['c']], none, true⟩ [(['b'], ['b'])] := rfl
  rw [hadd, addSorted, sortedType_find]
  rfl

theorem sorted_values_run_three : SortedOk (· = ·) sortedType ⟨3, [['a'], ['b'], ['c']], none, true⟩ ∧
    Searchable sortedType ⟨3, [['a'], ['b'], ['c']], none, true⟩ := by
  have hfirst : SortedStep (· = ·) sortedType none (.attrMerge false [['a'], ['c']] none) _ :=
    .attrMerge ⟨.cons rfl (.cons rfl .nil), by decide, fun s hs => nomatch hs⟩ sortedType_merge
  have hsecond : SortedStep (· = ·) sortedType _ (.attrMerge false [['b']] none) _ :=
    .attrMerge ⟨.cons rfl .nil, by decide, by decide⟩ sortedType_insert
  have horder : InOrder sortedType none (.attrMerge false [['a'], ['c']] none) := by
    rintro - _ ⟨⟩
    decide
  exact sorted_values_run rfl rfl (.cons ⟨hfirst, horder⟩ (.single ⟨hsecond, fun hnil => nomatch hnil⟩)) (fun a ha => nomatch ha)
    _ rfl

/-- The first values are handed over as `b`, `a`: so they are stored, and `b` is not found. -/
theorem sorted_values_first_unsorted :
    Steps (SortedStep (· = ·) sortedType) none [.attrMerge false [['b'], ['a']] none] (some ⟨2, [['b'], ['a']], none, true⟩) ∧
      ¬ Increasing sortedType [['b'], ['a']] ∧
      attrValfind sortedType ⟨2, [['b'], ['a']], none, true⟩ true ['b'] = some (.missing 2) := by
  refine ⟨.single (.attrMerge ⟨.cons rfl (.cons rfl .nil), by decide, fun s hs => nomatch hs⟩ rfl), by decide, ?_⟩
  have hloop : slotLoop (valueMatch sortedType ⟨2, [['b'], ['a']], none, true⟩ ['b']) [['b'], ['a']] 0 2 = some (false, 2) := by
    rw [slotLoop.eq_def]
    decide
  exact congrArg (Option.map Valfind.ofPair) hloop

end AttrVals
end Slapd
end ReOpenLDAP
