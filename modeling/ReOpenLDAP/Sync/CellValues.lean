import ReOpenLDAP.Sync.ModCells
import Mathlib.Data.List.Pairwise

/-!
# Sync.CellValues

The values of one attribute under modifications that name values.
-/

namespace ReOpenLDAP
namespace Sync

open Slapd List Option

variable {δ ν : Type} [DecidableEq δ] [DecidableEq ν]

def nf (mr : EqualityRule ν) (v : ν) : ν := (mr.norm v).getD v

/-- `v` of the entry matches the asserted `w`. -/
def Matches (mr : EqualityRule ν) (v w : ν) : Prop := mr.cmp (nf mr v) (nf mr w) = .eq

instance (mr : EqualityRule ν) (v w : ν) : Decidable (Matches mr v w) := inferInstanceAs (Decidable (_ = _))

structure Normal (mr : EqualityRule ν) (vs : List ν) : Prop where
  norm : ∀ v ∈ vs, mr.norm v = some (nf mr v)
  distinct : mr.Distinct (vs.map (nf mr))

/-- `nvalues` and `a_nvals`: there are normalized values if the rule has a normalizer. -/
def stored (mr : EqualityRule ν) (vs : List ν) : Option (List ν) := mr.normalize.map fun _ => vs.map (nf mr)

def valuesMod (op : ModOp) (d : δ) (mr : EqualityRule ν) (vs : List ν) : Modification δ ν := ⟨op, d, some vs, stored mr vs⟩

def Holds (mr : EqualityRule ν) (d : δ) (x : Option (Attr δ ν)) (vs : List ν) : Prop :=
  match x with
  | none => vs = []
  | some a => a.desc = d ∧ a.vals = vs ∧ vs ≠ [] ∧ a.nvals = stored mr vs

section Normal

variable {mr : EqualityRule ν} {vs ws : List ν} {v w : ν}

omit [DecidableEq ν] in
omit [DecidableEq ν] in
theorem Normal.sublist (h : Normal mr vs) (hs : ws.Sublist vs) : Normal mr ws :=
  ⟨fun v hv => h.norm v (hs.subset hv), h.distinct.sublist (hs.map _)⟩

omit [DecidableEq ν] in
theorem Normal.nodup (h : Normal mr vs) : vs.Nodup := by
  refine (List.pairwise_map.mp h.distinct).imp ?_
  rintro v w hne rfl
  exact hne.1 (mr.cmp_self _)

omit [DecidableEq ν] in
theorem Normal.eq_of_matches (h : Normal mr vs) (hv : v ∈ vs) (hw : w ∈ vs) (hm : Matches mr v w) : v = w := by
  by_contra hne
  have hpair := List.pairwise_map.mp h.distinct
  have hsymm : Std.Symm fun v w => mr.cmp (nf mr v) (nf mr w) ≠ .eq ∧ mr.cmp (nf mr w) (nf mr v) ≠ .eq :=
      ⟨fun _ _ h => ⟨h.2, h.1⟩⟩
  exact (hpair.forall hv hw hne).1 hm

omit [DecidableEq ν] in
theorem Normal.of_subset (h : Normal mr vs) (hs : ws ⊆ vs) (hn : ws.Nodup) : Normal mr ws := by
  refine ⟨fun v hv => h.norm v (hs hv), List.pairwise_map.mpr ?_⟩
  refine hn.imp_of_mem fun hv hw hne => ⟨fun hm => hne ?_, fun hm => hne ?_⟩
  · exact h.eq_of_matches (hs hv) (hs hw) hm
  · exact (h.eq_of_matches (hs hw) (hs hv) hm).symm

omit [DecidableEq ν] in
omit [DecidableEq ν] in
theorem getD_stored (mr : EqualityRule ν) (vs : List ν) : (stored mr vs).getD vs = vs.map (nf mr) := by
  unfold stored
  cases hf : mr.normalize with
  | some f => rfl
  | none =>
    have hsame : ∀ v, nf mr v = v := fun v => by simp [nf, EqualityRule.norm, hf]
    rw [map_congr_left fun v _ => hsame v, List.map_id']
    rfl

omit [DecidableEq δ] [DecidableEq ν] in
theorem AttrOk.normal {sch : ModSchema δ ν} {a : Attr δ ν} (h : AttrOk sch a) (hr : sch.equality a.desc = some mr) :
    Normal mr a.vals ∧ a.norms = a.vals.map (nf mr) := by
  have hmap := h.norm mr hr
  have hnorm : ∀ v ∈ a.vals, mr.norm v = some (nf mr v) := by
    intro v hv
    have hmem : mr.norm v ∈ a.norms.map some := hmap ▸ List.mem_map_of_mem hv
    obtain ⟨n, -, hn⟩ := List.mem_map.mp hmem
    rw [nf, ← hn, getD_some]
  have hnf : a.norms = a.vals.map (nf mr) := by
    refine List.map_injective_iff.mpr (fun _ _ => Option.some.inj) ?_
    rw [← hmap, List.map_map]
    exact map_congr_left hnorm
  exact ⟨⟨hnorm, hnf ▸ h.distinct mr hr⟩, hnf⟩

end Normal

/-! ## One modification -/

section Cell

variable {sch : ModSchema δ ν} {mr : EqualityRule ν} {d : δ} {x : Option (Attr δ ν)} {a : Attr δ ν} {vs ws ns : List ν}

omit [DecidableEq δ] [DecidableEq ν] in
theorem Holds.norms (h : Holds mr d (some a) vs) : a.norms = vs.map (nf mr) := by
  unfold Attr.norms
  rw [h.2.2.2, h.2.1, getD_stored]

omit [DecidableEq δ] [DecidableEq ν] in
theorem distinct_nodup (hd : mr.Distinct ns) : ns.Nodup := by
  refine hd.imp ?_
  rintro v w hne rfl
  exact hne.1 (mr.cmp_self _)

omit [DecidableEq δ] [DecidableEq ν] in
theorem locate_mem {p : Bool} (hd : mr.Distinct a.norms) (hmem : ∀ w ∈ ns, w ∈ a.norms) :
    ∃ idx, locate mr a true p ns = .ok idx ∧ none ∉ idx ∧ ∀ i, some i ∈ idx ↔ ∃ w ∈ ns, a.norms[i]? = some w := by
  induction ns with
  | nil => exact ⟨[], rfl, not_mem_nil, by simp⟩
  | cons w ns ih =>
    obtain ⟨idx, hloc, hnone, hidx⟩ := ih fun u hu => hmem u (mem_cons_of_mem w hu)
    obtain ⟨pre, post, hsplit⟩ := append_of_mem (hmem w mem_cons_self)
    have hat : a.norms[pre.length]? = some w := by
      rw [hsplit]
      simp
    refine ⟨some pre.length :: idx, ?_, by simpa using hnone, fun i => ?_⟩
    · unfold locate
      rw [attrValfind_at hsplit hd, hloc]
      rfl
    · rw [mem_cons, Option.some.injEq, hidx]
      constructor
      · rintro (rfl | ⟨u, hu, hi⟩)
        · exact ⟨w, mem_cons_self, hat⟩
        · exact ⟨u, mem_cons_of_mem w hu, hi⟩
      · rintro ⟨u, hu, hi⟩
        rcases List.mem_cons.mp hu with rfl | hu
        · have hlt : i < a.norms.length := (List.getElem?_eq_some_iff.mp hi).1
          exact .inl ((List.getElem?_inj hlt (distinct_nodup hd)).mp (hi.trans hat.symm))
        · exact .inr ⟨u, hu, hi⟩

omit [DecidableEq δ] [DecidableEq ν] in
theorem norm_plain (h : mr.normalize = none) (vs : List ν) : (vs.map (nf mr)).map mr.norm = (vs.map (nf mr)).map some :=
  map_congr_left fun v _ => by simp [EqualityRule.norm, h]

omit [DecidableEq δ] [DecidableEq ν] in
theorem locate_stored (mr : EqualityRule ν) (a : Attr δ ν) (p : Bool) (ws : List ν) :
    locate mr a (stored mr ws).isSome p ((stored mr ws).getD ws) = locate mr a true p (ws.map (nf mr)) := by
  rw [getD_stored]
  unfold stored
  cases hf : mr.normalize with
  | none => exact locate_norm (norm_plain hf ws)
  | some f => rfl

omit [DecidableEq δ] [DecidableEq ν] in
theorem checkNew_stored (mr : EqualityRule ν) (a : Attr δ ν) (p : Bool) (ws : List ν) :
    checkNew mr a (stored mr ws).isSome p ((stored mr ws).getD ws) = checkNew mr a true p (ws.map (nf mr)) := by
  rw [getD_stored]
  unfold stored
  cases hf : mr.normalize with
  | none => exact checkNew_norm (norm_plain hf ws)
  | some f => rfl

theorem cell_delete (hr : sch.equality d = some mr) (h : Holds mr d (some a) vs) (hv : Normal mr vs) (hs : ws ⊆ vs) :
    ∃ y, cell sch (some a) (valuesMod .delete d mr ws) = .ok y ∧ Holds mr d y (vs.filter (· ∉ ws)) := by
  have hnorms := h.norms
  obtain ⟨hdesc, hvals, hne, hnvals⟩ := h
  obtain ⟨idx, hloc, hnone, hidx⟩ := @locate_mem _ _ mr a (ws.map (nf mr)) false (hnorms ▸ hv.distinct) (by
    intro n hn
    obtain ⟨w, hw, rfl⟩ := List.mem_map.mp hn
    exact hnorms ▸ List.mem_map_of_mem (hs hw))
  have hmask : ∀ i, some (0 + i) ∈ idx ↔ (vs.map fun v => decide (v ∈ ws))[i]? = some true := by
    intro i
    rw [Nat.zero_add, hidx, hnorms, List.getElem?_map, List.getElem?_map]
    cases hi : vs[i]? with
    | none => simp
    | some v =>
      have hv' : v ∈ vs := mem_of_getElem? hi
      simp only [map_some, Option.some.injEq, decide_eq_true_eq]
      constructor
      · rintro ⟨n, hn, heq⟩
        obtain ⟨w, hw, rfl⟩ := List.mem_map.mp hn
        have hm : Matches mr v w := by
          unfold Matches
          rw [heq]
          exact mr.cmp_self _
        exact hv.eq_of_matches hv' (hs hw) hm ▸ hw
      · intro hw
        exact ⟨nf mr v, List.mem_map_of_mem hw, rfl⟩
  have hkeep : masked ((vs.map fun v => decide (v ∈ ws)).map not) vs = vs.filter (· ∉ ws) := by
    rw [List.map_map, masked_eq_filter]
    exact filter_congr fun v _ => by simp
  have hdrop : dropAt idx 0 vs = vs.filter (· ∉ ws) := (dropAt_masked (by simp) hmask).trans hkeep
  have hdrop' : (stored mr vs).map (dropAt idx 0) = stored mr (vs.filter (· ∉ ws)) := by
    unfold stored
    rw [Option.map_map]
    refine congrArg (Option.map · mr.normalize) (funext fun _ => ?_)
    rw [Function.comp_apply, dropAt_masked (by simp) hmask, masked_map, hkeep]
  have hfind : locate mr a (stored mr ws).isSome false ((stored mr ws).getD ws) = .ok idx := by
    rw [locate_stored]
    exact hloc
  have hlast : idx.getLast? ≠ some none := fun h => hnone (List.mem_of_getLast? h)
  have hfa : attrFind [a] d = some a := (attrFind_cons a).trans (if_pos hdesc)
  unfold cell modifyOne applyMod modifyDeleteValues valuesMod
  dsimp only [Option.toList]
  rw [hr, hfa]
  dsimp only
  rw [hfind]
  dsimp only
  rw [if_neg hlast, hvals, hdrop]
  by_cases hnil : vs.filter (· ∉ ws) = []
  · rw [if_pos hnil, attrDelete_cons, if_pos hdesc, hnil]
    exact ⟨none, rfl, rfl⟩
  · rw [if_neg hnil, attrSet, if_pos hdesc]
    refine ⟨_, congrArg Except.ok ((attrFind_cons _).trans (if_pos hdesc)), hdesc, ?_, hnil, ?_⟩
    · rw [hvals, hdrop]
    · dsimp only
      rw [hnvals, hdrop']

theorem addValues_holds (op : ModOp) (hr : sch.equality d = some mr) (h : Holds mr d x vs)
    (hw : ∀ w ∈ ws, mr.norm w = some (nf mr w))
    (hnew : ∀ w ∈ ws, ∀ v ∈ vs, ¬ Matches mr v w) (hne : ws ≠ []) :
    ∃ attrs', modifyAddValues sch x.toList (valuesMod op d mr ws) false = .ok attrs' ∧
      Holds mr d (attrFind attrs' d) (vs ++ ws) := by
  cases x with
  | none =>
    obtain rfl : vs = [] := h
    refine ⟨[attrNew d ws (stored mr ws)], rfl, ?_⟩
    have hfind : attrFind [attrNew d ws (stored mr ws)] d = some (attrNew d ws (stored mr ws)) :=
      (attrFind_cons _).trans (if_pos rfl)
    rw [hfind]
    exact ⟨rfl, rfl, hne, rfl⟩
  | some a =>
    have hnorms := h.norms
    obtain ⟨hdesc, hvals, hv, hnvals⟩ := h
    have hfa : attrFind [a] d = some a := (attrFind_cons a).trans (if_pos hdesc)
    have hnew' : ∀ n ∈ ws.map (nf mr), ∀ s ∈ a.norms, mr.cmp s n ≠ .eq := by
      intro n hn s hs
      obtain ⟨w, hw, rfl⟩ := List.mem_map.mp hn
      rw [hnorms] at hs
      obtain ⟨v, hv, rfl⟩ := List.mem_map.mp hs
      exact hnew w hw v hv
    have hmap : ws.map mr.norm = (ws.map (nf mr)).map some := by
      rw [List.map_map]
      exact map_congr_left hw
    have hnd : ([a].map (·.desc)).Nodup := pairwise_singleton _ _
    obtain ⟨attrs', happ, hs⟩ := modifyAddValues_sets hnd op false hr hfa hmap hnew' hne
    have hstored : (if a.nvals.isSome then some (ws.map (nf mr)) else none) = stored mr ws := by
      rw [hnvals]
      unfold stored
      cases mr.normalize <;> rfl
    rw [hstored] at happ
    refine ⟨attrs', happ, ?_⟩
    rw [hs.found]
    refine ⟨hdesc, congrArg (· ++ ws) hvals, by simp [hne], ?_⟩
    dsimp only
    rw [hnvals]
    unfold stored
    cases mr.normalize <;> simp

theorem cell_add (hr : sch.equality d = some mr) (h : Holds mr d x vs) (hn : Normal mr (vs ++ ws)) (hne : ws ≠ []) :
    ∃ y, cell sch x (valuesMod .add d mr ws) = .ok y ∧ Holds mr d y (vs ++ ws) := by
  have hnew : ∀ w ∈ ws, ∀ v ∈ vs, ¬ Matches mr v w := fun w hw v hv =>
    ((List.pairwise_append.mp (List.pairwise_map.mp hn.distinct)).2.2 v hv w hw).1
  obtain ⟨attrs', happ, hy⟩ := addValues_holds .add hr h (fun w hw => hn.norm w (mem_append_right vs hw)) hnew hne
  refine ⟨attrFind attrs' d, ?_, hy⟩
  have hone : modifyOne sch x.toList (valuesMod .add d mr ws) = .ok attrs' := happ
  rw [cell, hone]
  rfl

def softly (mr : EqualityRule ν) (vs : List ν) (w : ν) : List ν := if ∃ v ∈ vs, Matches mr v w then vs else vs ++ [w]

theorem cell_softadd {w : ν} (hr : sch.equality d = some mr) (h : Holds mr d x vs) (hw : mr.norm w = some (nf mr w)) :
    ∃ y, cell sch x (valuesMod .softadd d mr [w]) = .ok y ∧ Holds mr d y (softly mr vs w) := by
  unfold softly
  by_cases hex : ∃ v ∈ vs, Matches mr v w
  · rw [if_pos hex]
    refine ⟨x, ?_, h⟩
    obtain ⟨v, hv, hm⟩ := hex
    cases x with
    | none =>
      obtain rfl : vs = [] := h
      cases hv
    | some a =>
      have hfa : attrFind [a] d = some a := (attrFind_cons a).trans (if_pos h.1)
      have hsome : (a.norms.findIdx? fun s => mr.cmp s (nf mr w) = .eq).isSome := by
        rw [List.findIdx?_isSome, List.any_eq_true]
        exact ⟨nf mr v, h.norms ▸ List.mem_map_of_mem hv, decide_eq_true hm⟩
      obtain ⟨i, hi⟩ := Option.isSome_iff_exists.mp hsome
      have hcheck : checkNew mr a (stored mr [w]).isSome false ((stored mr [w]).getD [w]) = .error .typeOrValueExists := by
        rw [checkNew_stored, map_singleton, checkNew]
        unfold attrValfind
        simp [hi]
      have hadd : modifyAddValues sch [a] (valuesMod .softadd d mr [w]) false = .error .typeOrValueExists := by
        unfold modifyAddValues valuesMod
        dsimp only
        rw [hfa, hr]
        dsimp only
        rw [getD_some, hcheck]
      have hone : modifyOne sch [a] (valuesMod .softadd d mr [w]) = .ok [a] := by
        unfold modifyOne
        dsimp only [valuesMod] at hadd ⊢
        rw [hadd]
      rw [cell, toList_some, hone]
      exact congrArg Except.ok hfa
  · rw [if_neg hex]
    have hnorm : ∀ u ∈ [w], mr.norm u = some (nf mr u) := by simpa using hw
    have hnew : ∀ u ∈ [w], ∀ v ∈ vs, ¬ Matches mr v u := by
      simp only [mem_singleton, forall_eq]
      exact fun v hv hm => hex ⟨v, hv, hm⟩
    obtain ⟨attrs', happ, hy⟩ := addValues_holds .softadd hr h hnorm hnew (cons_ne_nil w [])
    refine ⟨attrFind attrs' d, ?_, hy⟩
    have hone : modifyOne sch x.toList (valuesMod .softadd d mr [w]) = .ok attrs' := by
      unfold modifyOne
      dsimp only [valuesMod] at happ ⊢
      rw [happ]
    rw [cell, hone]
    rfl

theorem cell_replace {n : Attr δ ν} (hx : ∀ a, x = some a → a.desc = n.desc) :
    cell sch x (replaceMod n) = .ok (some (attrNew n.desc n.vals n.nvals)) := by
  have hnd : (x.toList.map (·.desc)).Nodup := by cases x <;> simp
  have hvals : (replaceMod n).values = some n.vals := rfl
  obtain ⟨attrs', happ, hs⟩ := @modifyReplaceValues_sets _ _ _ _ sch _ hnd false (replaceMod n) n.vals hvals
  have hone : modifyOne sch x.toList (replaceMod n) = .ok attrs' := happ
  rw [cell, hone]
  exact congrArg Except.ok hs.found

theorem cell_deleteAll (h : a.desc = d) : cell sch (some a) ⟨.delete, d, none, none⟩ = .ok none := by
  have hfa : attrFind [a] d = some a := (attrFind_cons a).trans (if_pos h)
  have hdel : attrDelete [a] d = [] := (attrDelete_cons a).trans (if_pos h)
  have hone : modifyOne sch [a] ⟨.delete, d, none, none⟩ = .ok [] := by
    unfold modifyOne applyMod modifyDeleteValues
    simp [hfa, hdel]
  rw [cell, toList_some, hone]
  rfl

def valuesOpt (op : ModOp) (d : δ) (mr : EqualityRule ν) (vs : List ν) : List (Modification δ ν) :=
  if vs = [] then [] else [valuesMod op d mr vs]

omit [DecidableEq δ] [DecidableEq ν] in
theorem mem_softly {v w : ν} : v ∈ softly mr vs w ↔ v ∈ vs ∨ v = w ∧ ∀ u ∈ vs, ¬ Matches mr u w := by
  unfold softly
  by_cases hex : ∃ u ∈ vs, Matches mr u w
  · obtain ⟨u, hu, hm⟩ := hex
    rw [if_pos ⟨u, hu, hm⟩]
    exact ⟨.inl, fun h => h.elim id fun h => absurd hm (h.2 u hu)⟩
  · rw [if_neg hex, mem_append, mem_singleton]
    simp only [not_exists, not_and] at hex
    exact or_congr_right ⟨fun h => ⟨h, hex⟩, fun h => h.1⟩

omit [DecidableEq δ] [DecidableEq ν] in
theorem Normal.softly {w : ν} (hsymm : ∀ v w, mr.cmp v w = .eq → mr.cmp w v = .eq) (h : Normal mr vs)
    (hw : mr.norm w = some (nf mr w)) : Normal mr (softly mr vs w) := by
  unfold Sync.softly
  by_cases hex : ∃ v ∈ vs, Matches mr v w
  · rw [if_pos hex]
    exact h
  · rw [if_neg hex]
    refine ⟨fun v hv => ?_, ?_⟩
    · rcases List.mem_append.mp hv with hv | hv
      · exact h.norm v hv
      · rw [List.mem_singleton.mp hv]
        exact hw
    · rw [map_append, map_singleton]
      refine List.pairwise_append.mpr ⟨h.distinct, pairwise_singleton _ _, fun n hn m hm => ?_⟩
      obtain ⟨v, hv, rfl⟩ := List.mem_map.mp hn
      obtain rfl := List.mem_singleton.mp hm
      have hne : ¬ Matches mr v w := fun hm => hex ⟨v, hv, hm⟩
      exact ⟨hne, fun hm => hne (hsymm _ _ hm)⟩

theorem cellRun_compared {dels adds : List ν} (hr : sch.equality d = some mr) (h : Holds mr d x vs) (hv : Normal mr vs)
    (hdels : dels ⊆ vs) (hn : Normal mr (vs.filter (· ∉ dels) ++ adds)) :
    ∃ y, cellRun sch x (valuesOpt .delete d mr dels ++ valuesOpt .add d mr adds) = .ok y ∧
      Holds mr d y (vs.filter (· ∉ dels) ++ adds) := by
  obtain ⟨y, hy, hh⟩ : ∃ y, cellRun sch x (valuesOpt .delete d mr dels) = .ok y ∧ Holds mr d y (vs.filter (· ∉ dels)) := by
    unfold valuesOpt
    by_cases hnil : dels = []
    · subst hnil
      rw [if_pos rfl]
      refine ⟨x, rfl, ?_⟩
      simpa using h
    · rw [if_neg hnil]
      cases x with
      | none =>
        obtain rfl : vs = [] := h
        exact absurd (eq_nil_of_subset_nil hdels) hnil
      | some a =>
        obtain ⟨y, hy, hh⟩ := cell_delete hr h hv hdels
        refine ⟨y, ?_, hh⟩
        rw [cellRun_cons, hy]
        rfl
  rw [cellRun_append, hy]
  unfold valuesOpt
  by_cases hnil : adds = []
  · subst hnil
    rw [if_pos rfl, List.append_nil]
    exact ⟨y, rfl, hh⟩
  · rw [if_neg hnil]
    obtain ⟨z, hz, hh'⟩ := cell_add hr hh hn hnil
    refine ⟨z, ?_, hh'⟩
    change cellRun sch y [_] = .ok z
    rw [cellRun_cons, hz]
    rfl

end Cell

end Sync
end ReOpenLDAP
