import ReOpenLDAP.Sync.CellValues
import ReOpenLDAP.Sync.RenameLists

/-!
# Sync.RenameValues

A naming attribute under the two requests of a rename.

* `ValueShape`   — `Shape`, with the values: some of `old` that `new` lacks, and some of `new` that `old` lacks.
-/

namespace ReOpenLDAP
namespace Sync

open Slapd List

variable {ρ π δ ν : Type} [DecidableEq δ] [DecidableEq ν]

/-- What `Shape` is for an attribute with an equality rule. -/
inductive ValueShape (mr : EqualityRule ν) (old new : List (Attr δ ν)) (d : δ) : List (Modification δ ν) → Prop
  | left (h : attrFind new d = none) : ValueShape mr old new d []
  | delete {o : Attr δ ν} (ho : attrFind old d = some o) (h : attrFind new d = none) :
      ValueShape mr old new d [⟨.delete, d, none, none⟩]
  | replace {n : Attr δ ν} (hd : n.desc = d) (hn : (attrFind new d).map (·.vals) = some n.vals) :
      ValueShape mr old new d [replaceMod n]
  | compare {o : Attr δ ν} {news : List ν} (ho : attrFind old d = some o) (hn : (attrFind new d).map (·.vals) = some news)
      (hlive : ∃ v ∈ o.vals, v ∈ news) :
      ValueShape mr old new d
        (valuesOpt .delete d mr (o.vals.filter (· ∉ news)) ++ valuesOpt .add d mr (news.filter (· ∉ o.vals)))

section Shape

variable {sch : DiffSchema δ ν} {mr : EqualityRule ν} {old new : List (Attr δ ν)} {d : δ} {ms : List (Modification δ ν)}

omit [DecidableEq δ] [DecidableEq ν] in
theorem stored_masked (mr : EqualityRule ν) (mask : List Bool) (vs : List ν) :
    (stored mr vs).map (masked mask) = stored mr (masked mask vs) := by
  unfold stored
  rw [Option.map_map]
  exact congrArg (Option.map · mr.normalize) (funext fun _ => masked_map (nf mr) mask vs)

/-- An attribute with a rule has normalized values if the rule has a normalizer. -/
def Stored (sch : ModSchema δ ν) (attrs : List (Attr δ ν)) (d : δ) : Prop :=
  ∀ a mr, attrFind attrs d = some a → sch.equality d = some mr → a.nvals.isSome = mr.normalize.isSome

omit [DecidableEq δ] [DecidableEq ν] in
theorem stored_of_isSome {a : Attr δ ν} (h : a.norms = a.vals.map (nf mr)) (hs : a.nvals.isSome = mr.normalize.isSome) :
    a.nvals = stored mr a.vals := by
  unfold stored
  cases hf : mr.normalize with
  | none =>
    rw [hf] at hs
    exact Option.isNone_iff_eq_none.mp (by simpa using hs)
  | some f =>
    rw [hf] at hs
    obtain ⟨ns, hns⟩ := Option.isSome_iff_exists.mp hs
    rw [Attr.norms, hns, Option.getD_some] at h
    rw [hns, h, Option.map_some]

omit [DecidableEq ν] in
theorem holds_old (hr : sch.equality d = some mr) (hO : EntryOk sch.toModSchema old) (hs : Stored sch.toModSchema old d)
    {o : Attr δ ν}
    (ho : attrFind old d = some o) : Holds mr d (some o) o.vals ∧ Normal mr o.vals := by
  obtain ⟨hmem, rfl⟩ := attrFind_some ho
  obtain ⟨hnormal, hnorms⟩ := (hO.attr o hmem).normal hr
  exact ⟨⟨rfl, rfl, (hO.attr o hmem).vals, stored_of_isSome hnorms (hs o mr ho hr)⟩, hnormal⟩

theorem valueShape_of_shape (hr : sch.equality d = some mr) (hO : EntryOk sch.toModSchema old) (hs : Stored sch.toModSchema old d)
    (h : Shape sch old new d ms) : ValueShape mr old new d ms := by
  cases h with
  | left h => exact .left h
  | delete ho h => exact .delete ho h
  | replace hd hn => exact .replace hd (hd ▸ hn.vals)
  | @compare o n dels adds last ho hd hn hmatch hlt hrule =>
    obtain ⟨⟨hdesc, -, hne, hstored⟩, hnormal⟩ := holds_old hr hO hs ho
    obtain ⟨hnormal', hnorms'⟩ := hn.attr.normal (hd ▸ hr)
    have hinit : List.replicate n.vals.length true = n.vals.map fun _ => true := List.map_const'.symm
    obtain ⟨hdels, hadds⟩ := matchValues_exact hnormal'.nodup hnormal.nodup (fun _ => true) (fun _ _ => rfl) 0
    rw [hinit] at hmatch
    rw [hmatch] at hdels hadds
    dsimp only at hdels hadds
    have hlen : dels.length = o.vals.length := by rw [hdels, length_map]
    have hlen' : adds.length = n.vals.length := by rw [hadds, length_map]
    have hmasked : masked dels o.vals = o.vals.filter (· ∉ n.vals) := by rw [hdels, masked_eq_filter]
    have hmasked' : masked adds n.vals = n.vals.filter (· ∉ o.vals) := by
      rw [hadds, masked_eq_filter]
      simp
    have hdel : delMods o dels = valuesOpt .delete d mr (o.vals.filter (· ∉ n.vals)) := by
      unfold delMods valuesOpt valuesMod
      rw [← hmasked, ← masked_length hlen, hdesc, hstored, stored_masked]
      simp
    have hadd : addMods o n adds = valuesOpt .add d mr (n.vals.filter (· ∉ o.vals)) := by
      unfold addMods valuesOpt valuesMod
      rw [← hmasked', ← masked_length hlen', hdesc, hstored, hnorms', masked_map]
      unfold stored
      cases mr.normalize <;> simp
    rw [hdel, hadd]
    refine .compare ho (hd ▸ hn.vals) ?_
    by_contra hnone
    have hall : o.vals.filter (· ∉ n.vals) = o.vals := List.filter_eq_self.mpr fun v hv => by
      simpa using fun hv' => hnone ⟨v, hv, hv'⟩
    rw [← masked_length hlen, hmasked, hall] at hlt
    omega

end Shape

section Drop

variable {mr : EqualityRule ν} {d : δ} {vs : List ν} {v : ν}

theorem swapRemove_perm {α : Type} {x : α} {xs : List α} {i : Nat} (h : xs[i]? = some x) : (x :: swapRemove i xs).Perm xs := by
  obtain ⟨hlt, hx⟩ := List.getElem?_eq_some_iff.mp h
  obtain ⟨p, q, hxs, hp⟩ : ∃ p q, xs = p ++ x :: q ∧ p.length = i :=
    ⟨xs.take i, xs.drop (i + 1), by rw [← hx, cons_getElem_drop_succ, take_append_drop], by simp; omega⟩
  subst hxs hp
  unfold swapRemove
  rcases eq_nil_or_concat q with rfl | ⟨q, z, rfl⟩
  · simpa using (perm_append_singleton x p).symm
  · have hlast : (p ++ x :: (q ++ [z])).getLast? = some z := by
      rw [← cons_append, ← append_assoc, List.getLast?_concat]
    rw [concat_eq_append, hlast]
    dsimp only
    rw [set_append_right _ _ le_rfl, Nat.sub_self, set_cons_zero, ← cons_append, ← append_assoc,
      dropLast_concat]
    have hend : (z :: q).Perm (q ++ [z]) := (perm_append_singleton z q).symm
    exact List.perm_middle.symm.trans ((hend.cons x).append_left p)

theorem swapRemove_map {α β : Type} (f : α → β) (i : Nat) (xs : List α) : (swapRemove i xs).map f = swapRemove i (xs.map f) := by
  unfold swapRemove
  rw [List.getLast?_map]
  cases xs.getLast? with
  | none => rfl
  | some z => simp [map_set, map_dropLast]

omit [DecidableEq δ] in
theorem dropValue_values (op : ModOp) (hn : vs.Nodup) :
    ∃ vs', dropValue v (valuesMod op d mr vs) = valuesMod op d mr vs' ∧ vs'.Nodup ∧ ∀ u, u ∈ vs' ↔ u ∈ vs ∧ u ≠ v := by
  unfold dropValue valuesMod
  rw [Option.getD_some]
  cases hfind : vs.findIdx? (· = v) with
  | none =>
    refine ⟨vs, rfl, hn, fun u => ⟨fun hu => ⟨hu, ?_⟩, fun h => h.1⟩⟩
    rintro rfl
    simpa using List.findIdx?_eq_none_iff.mp hfind u hu
  | some i =>
    have hat : vs[i]? = some v := by
      obtain ⟨hlt, hv, -⟩ := List.findIdx?_eq_some_iff_getElem.mp hfind
      rw [List.getElem?_eq_getElem hlt, of_decide_eq_true hv]
    have hperm := swapRemove_perm hat
    have hnd := hperm.nodup_iff.mpr hn
    refine ⟨swapRemove i vs, ?_, (List.nodup_cons.mp hnd).2, fun u => ?_⟩
    · dsimp only
      unfold stored
      rw [Option.map_some, Option.map_map]
      simp only [Function.comp_def, swapRemove_map]
    · rw [← hperm.mem_iff, mem_cons]
      constructor
      · exact fun hu => ⟨.inr hu, fun heq => (List.nodup_cons.mp hnd).1 (heq ▸ hu)⟩
      · exact fun hu => hu.1.resolve_left hu.2

variable {modlist : List (Modification δ ν)} {dni : DnInfo π δ} {dels adds : List ν}

omit [DecidableEq δ] [DecidableEq ν] in
theorem numvals_valuesMod (op : ModOp) : numvals (valuesMod op d mr vs) = vs.length := rfl

theorem dropOld_add : dropOld modlist dni (valuesOpt .add d mr adds) = .ok (valuesOpt .add d mr adds, false) := by
  unfold valuesOpt
  split_ifs
  · rfl
  · unfold dropOld
    dsimp only
    simp [valuesMod, dropOld, Except.map]

theorem dropOld_compare (hd : dni.oldDesc = d) (hcount : dels ≠ [] → dni.oldNcount ≠ 1)
    (hrdn : rdnValue modlist d .delete = some v)
    (hn : dels.Nodup) :
    ∃ dels', dropOld modlist dni (valuesOpt .delete d mr dels ++ valuesOpt .add d mr adds) =
        .ok (valuesOpt .delete d mr dels' ++ valuesOpt .add d mr adds, false) ∧
      dels'.Nodup ∧ ∀ u, u ∈ dels' ↔ u ∈ dels ∧ u ≠ v := by
  by_cases hnil : dels = []
  · subst hnil
    exact ⟨[], dropOld_add, hn, by simp⟩
  · obtain ⟨dels', hdrop, hn', hmem⟩ := @dropValue_values _ _ _ mr d dels v .delete hn
    refine ⟨dels', ?_, hn', hmem⟩
    have hone : valuesOpt .delete d mr dels = [valuesMod .delete d mr dels] := if_neg hnil
    have hdesc : (valuesMod .delete d mr dels).desc = dni.oldDesc := hd.symm
    have hop : (valuesMod .delete d mr dels).op = .delete := rfl
    have hlen : dels.length ≠ 0 := fun h => hnil (eq_nil_of_length_eq_zero h)
    rw [hone, singleton_append, dropOld]
    dsimp only
    rw [if_neg (not_not.mpr hdesc), hop, if_neg (by simp), if_neg (fun h => hcount hnil h.2.1),
      if_neg (by simp [numvals_valuesMod, hnil]), hd, hrdn]
    dsimp only
    rw [hdrop, numvals_valuesMod]
    unfold valuesOpt
    by_cases hnil' : dels' = []
    · simp [hnil']
    · simp [hnil']

theorem dropNew_delete (ms : List (Modification δ ν)) :
    dropNew modlist dni (valuesOpt .delete d mr dels ++ ms) =
      (dropNew modlist dni ms).map (valuesOpt .delete d mr dels ++ ·) := by
  unfold valuesOpt
  split_ifs
  · cases h : dropNew modlist dni ms <;> simp [h, Except.map]
  · rw [singleton_append, dropNew, if_pos (.inr (by simp [valuesMod]))]
    rfl

theorem dropNew_compare (hd : dni.newDesc = d) (hn : adds.Nodup) :
    (adds.length ≤ 1 → dropNew modlist dni (valuesOpt .delete d mr dels ++ valuesOpt .add d mr adds) =
        .ok (valuesOpt .delete d mr dels ++ valuesOpt .add d mr [])) ∧
    (1 < adds.length → rdnValue modlist dni.oldDesc .softadd = none →
      dropNew modlist dni (valuesOpt .delete d mr dels ++ valuesOpt .add d mr adds) = .error .badPointer) ∧
    (1 < adds.length → rdnValue modlist dni.oldDesc .softadd = some v → ∃ adds',
      dropNew modlist dni (valuesOpt .delete d mr dels ++ valuesOpt .add d mr adds) =
          .ok (valuesOpt .delete d mr dels ++ valuesOpt .add d mr adds') ∧
        adds'.Nodup ∧ ∀ u, u ∈ adds' ↔ u ∈ adds ∧ u ≠ v) := by
  have hdesc : ¬ ((valuesMod .add d mr adds).desc ≠ dni.newDesc ∨ (valuesMod .add d mr adds).op ≠ .add) := by
    simp [valuesMod, hd]
  have hone : 1 < adds.length → valuesOpt .add d mr adds = [valuesMod .add d mr adds] := fun hlen =>
    if_neg (by rintro rfl; simp at hlen)
  rw [dropNew_delete]
  refine ⟨fun hlen => ?_, fun hlen hrdn => ?_, fun hlen hrdn => ?_⟩
  · obtain rfl | ⟨w, rfl⟩ : adds = [] ∨ ∃ w, adds = [w] := by
      rcases adds with _ | ⟨w, _ | ⟨u, adds⟩⟩
      · exact .inl rfl
      · exact .inr ⟨w, rfl⟩
      · simp at hlen
    · rfl
    · have hw : valuesOpt .add d mr [w] = [valuesMod .add d mr [w]] := if_neg (cons_ne_nil w [])
      rw [hw, dropNew, if_neg hdesc, numvals_valuesMod, if_pos length_singleton]
      rfl
  · rw [hone hlen, dropNew, if_neg hdesc, numvals_valuesMod, if_neg (by omega), if_neg (by omega), hrdn]
    rfl
  · obtain ⟨adds', hdrop, hn', hmem⟩ := @dropValue_values _ _ _ mr d adds v .add hn
    refine ⟨adds', ?_, hn', hmem⟩
    have hne : adds' ≠ [] := by
      rintro rfl
      have hall : ∀ u ∈ adds, u = v := fun u hu => by
        by_contra huv
        exact absurd ((hmem u).mpr ⟨hu, huv⟩) not_mem_nil
      rcases adds with _ | ⟨w, _ | ⟨u, adds⟩⟩
      · simp at hlen
      · simp at hlen
      · have hwu : w = u := (hall w (by simp)).trans (hall u (by simp)).symm
        simp [hwu] at hn
    have hone' : valuesOpt .add d mr adds' = [valuesMod .add d mr adds'] := if_neg hne
    rw [hone hlen, dropNew, if_neg hdesc, numvals_valuesMod, if_neg (by omega), if_neg (by omega), hrdn, hone']
    dsimp only
    rw [hdrop]
    rfl

theorem dropOld_deleteAll (hd : dni.oldDesc = d) :
    dropOld modlist dni [⟨.delete, d, none, none⟩] =
      .ok (if dni.oldNcount = 1 then [] else [⟨.delete, d, none, none⟩], false) := by
  unfold dropOld
  dsimp only
  by_cases hone : dni.oldNcount = 1 <;> simp [hd, hone, numvals, dropOld, Except.map]

theorem dropOld_replaceMod {n : Attr δ ν} (hd : dni.oldDesc = n.desc) :
    dropOld modlist dni [replaceMod n] =
      .ok (if dni.oldDesc = dni.newDesc ∧ n.vals.length ≤ 1 ∧ dni.oldNcount = 1 then ([], true)
        else ([replaceMod n], false)) := by
  have hdesc : (replaceMod n).desc = dni.oldDesc := hd.symm
  have hop : (replaceMod n).op = .replace := rfl
  have hnum : numvals (replaceMod n) = n.vals.length := rfl
  rw [dropOld]
  dsimp only
  rw [if_neg (not_not.mpr hdesc), hop, hnum]
  by_cases hsame : dni.oldDesc = dni.newDesc
  · rw [if_neg fun h => h.2 hsame]
    by_cases hone : n.vals.length ≤ 1 ∧ dni.oldNcount = 1
    · rw [if_pos ⟨hone.1, hone.2, .inr rfl⟩, if_pos ⟨hsame, hone⟩]
      simp
    · rw [if_neg fun h => hone ⟨h.1, h.2.1⟩, if_pos (.inl (by simp)), if_neg fun h => hone h.2]
      rfl
  · rw [if_pos ⟨rfl, hsame⟩, if_neg fun h => hsame h.1]
    rfl

theorem dropNew_replaceMod {n : Attr δ ν} : dropNew modlist dni [replaceMod n] = .ok [replaceMod n] := by
  simp [dropNew, replaceMod, Except.map]

end Drop

/-! ## What becomes of the values -/

def CellRight (sch : ModSchema δ ν) (old new : List (Attr δ ν)) (d : δ) (ms : List (Modification δ ν)) : Prop :=
  ∃ x, cellRun sch (attrFind old d) ms = .ok x ∧ Option.Rel List.Perm (x.map (·.vals)) ((attrFind new d).map (·.vals))

theorem cellRight_iff {sch : ModSchema δ ν} {old new : List (Attr δ ν)} {d : δ} {ms : List (Modification δ ν)}
    {x : Option (Attr δ ν)} (h : cellRun sch (attrFind old d) ms = .ok x) :
    CellRight sch old new d ms ↔ Option.Rel List.Perm (x.map (·.vals)) ((attrFind new d).map (·.vals)) := by
  rw [CellRight, h]
  constructor
  · rintro ⟨y, hy, hrel⟩
    exact Except.ok.inj hy ▸ hrel
  · exact fun hrel => ⟨x, rfl, hrel⟩

def rdnMods (mr : EqualityRule ν) (d : δ) (a b : Option ν) : List (Modification δ ν) :=
  (a.toList.map fun a => valuesMod .delete d mr [a]) ++ b.toList.map fun b => valuesMod .softadd d mr [b]

section Values

variable {sch : ModSchema δ ν} {mr : EqualityRule ν} {old new : List (Attr δ ν)} {d : δ} {x : Option (Attr δ ν)} {o n : Attr δ ν}
  {vs news dels adds : List ν} {a b : Option ν}

theorem cellRun_rdn (hr : sch.equality d = some mr) (hsymm : ∀ v w, mr.cmp v w = .eq → mr.cmp w v = .eq) (hx : Holds mr d x vs)
    (hv : Normal mr vs) (ha : ∀ v, a = some v → v ∈ vs) (hb : ∀ v, b = some v → mr.norm v = some (nf mr v)) :
    ∃ y vs', cellRun sch x (rdnMods mr d a b) = .ok y ∧ Holds mr d y vs' ∧ Normal mr vs' ∧
      ∀ v, v ∈ vs' ↔ v ∈ vs ∧ a ≠ some v ∨ b = some v ∧ ∀ u ∈ vs, a ≠ some u → ¬ Matches mr u v := by
  obtain ⟨y, vs₁, hy, hh, hn, hmem⟩ : ∃ y vs₁, cellRun sch x (a.toList.map fun a => valuesMod .delete d mr [a]) = .ok y ∧
      Holds mr d y vs₁ ∧ Normal mr vs₁ ∧ ∀ v, v ∈ vs₁ ↔ v ∈ vs ∧ a ≠ some v := by
    cases a with
    | none => exact ⟨x, vs, rfl, hx, hv, by simp⟩
    | some a =>
      have hin : a ∈ vs := ha a rfl
      cases x with
      | none =>
        obtain rfl : vs = [] := hx
        cases hin
      | some o =>
        have hsub : [a] ⊆ vs := by simpa using hin
        obtain ⟨y, hy, hh⟩ := cell_delete hr hx hv hsub
        refine ⟨y, _, ?_, hh, hv.sublist filter_sublist, fun v => ?_⟩
        · change cellRun sch (some o) [_] = .ok y
          rw [cellRun_cons, hy]
          rfl
        · rw [mem_filter, decide_eq_true_eq, mem_singleton, ne_eq, Option.some.injEq, eq_comm]
  unfold rdnMods
  rw [cellRun_append, hy]
  cases b with
  | none => exact ⟨y, vs₁, rfl, hh, hn, by simp [hmem]⟩
  | some b =>
    obtain ⟨z, hz, hh'⟩ := cell_softadd hr hh (hb b rfl)
    refine ⟨z, _, ?_, hh', hn.softly hsymm (hb b rfl), fun v => ?_⟩
    · change cellRun sch y [_] = .ok z
      rw [cellRun_cons, hz]
      rfl
    · rw [mem_softly, hmem]
      refine or_congr_right ⟨?_, ?_⟩
      · rintro ⟨rfl, hno⟩
        exact ⟨rfl, fun u hu hne => hno u ((hmem u).mpr ⟨hu, hne⟩)⟩
      · rintro ⟨heq, hno⟩
        obtain rfl := Option.some.inj heq
        exact ⟨rfl, fun u hu => hno u ((hmem u).mp hu).1 ((hmem u).mp hu).2⟩

omit [DecidableEq δ] [DecidableEq ν] in
theorem holds_right (h : Holds mr d x vs) (hne : news ≠ []) :
    Option.Rel List.Perm (x.map (·.vals)) (some news) ↔ vs.Perm news := by
  cases x with
  | none =>
    obtain rfl : vs = [] := h
    constructor
    · intro h
      cases h
    · intro h
      exact absurd (List.Perm.nil_eq h).symm hne
  | some o =>
    obtain ⟨-, rfl, -, -⟩ := h
    constructor
    · intro h
      cases h with
      | some h => exact h
    · exact .some

/-- The values of the new entry are all there: they are those of the old one that are not the old RDN's, the new RDN's where no
other matched it, and those that are added. -/
theorem compare_right_iff (hr : sch.equality d = some mr) (hsymm : ∀ v w, mr.cmp v w = .eq → mr.cmp w v = .eq)
    (ho : attrFind old d = some o) (hO : Holds mr d (some o) o.vals) (hno : Normal mr o.vals)
    (hn : (attrFind new d).map (·.vals) = some news) (hnn : Normal mr news) (hne : news ≠ []) (ha : ∀ v, a = some v → v ∈ o.vals)
    (hb : ∀ v, b = some v → v ∈ news) (hdels : ∀ v, v ∈ dels ↔ (v ∈ o.vals ∧ v ∉ news) ∧ a ≠ some v)
    (hadds : ∀ v ∈ adds, v ∈ news ∧ v ∉ o.vals ∧ b ≠ some v) (hnd : adds.Nodup) :
    CellRight sch old new d (rdnMods mr d a b ++ (valuesOpt .delete d mr dels ++ valuesOpt .add d mr adds)) ↔
      ∀ v ∈ news, (v ∈ o.vals ∧ a ≠ some v ∨ b = some v ∧ ∀ u ∈ o.vals, a ≠ some u → ¬ Matches mr u v) ∨ v ∈ adds := by
  obtain ⟨y, vs₁, hy, hh, hv, hmem⟩ := cellRun_rdn hr hsymm hO hno ha fun v hv => hnn.norm v (hb v hv)
  have hsub : dels ⊆ vs₁ := fun v hv' => (hmem v).mpr (.inl ⟨((hdels v).mp hv').1.1, ((hdels v).mp hv').2⟩)
  have hkeep : ∀ v ∈ vs₁, v ∉ dels → v ∈ news := by
    intro v hv' hout
    rcases (hmem v).mp hv' with ⟨hin, hne'⟩ | ⟨hbv, -⟩
    · by_contra hnew
      exact hout ((hdels v).mpr ⟨⟨hin, hnew⟩, hne'⟩)
    · exact hb v hbv
  have hin : ∀ v ∈ vs₁.filter (· ∉ dels) ++ adds, v ∈ news := by
    intro v hv'
    rcases List.mem_append.mp hv' with hv' | hv'
    · obtain ⟨hv', hout⟩ := List.mem_filter.mp hv'
      exact hkeep v hv' (of_decide_eq_true hout)
    · exact (hadds v hv').1
  have hnodup : (vs₁.filter (· ∉ dels) ++ adds).Nodup := by
    refine List.nodup_append.mpr ⟨hv.nodup.sublist filter_sublist, hnd, ?_⟩
    rintro v hv' w hw rfl
    rcases (hmem v).mp (List.mem_filter.mp hv').1 with ⟨hold, -⟩ | ⟨hbv, -⟩
    · exact (hadds v hw).2.1 hold
    · exact (hadds v hw).2.2 hbv
  obtain ⟨z, hz, hh'⟩ := cellRun_compared hr hh hv hsub (hnn.of_subset hin hnodup)
  have hrun : cellRun sch (attrFind old d) (rdnMods mr d a b ++ (valuesOpt .delete d mr dels ++ valuesOpt .add d mr adds)) =
      .ok z := by
    rw [ho, cellRun_append, hy]
    exact hz
  rw [cellRight_iff hrun, hn, holds_right hh' hne, perm_ext_iff_of_nodup hnodup hnn.nodup]
  refine ⟨fun h v hv' => ?_, fun h v => ⟨hin v, fun hv' => ?_⟩⟩
  · rcases List.mem_append.mp ((h v).mpr hv') with hv' | hv'
    · exact .inl ((hmem v).mp (List.mem_filter.mp hv').1)
    · exact .inr hv'
  · rcases h v hv' with hv₁ | hadd
    · refine mem_append_left _ (List.mem_filter.mpr ⟨(hmem v).mpr hv₁, decide_eq_true fun hd => ?_⟩)
      exact ((hdels v).mp hd).1.2 hv'
    · exact mem_append_right _ hadd

theorem replace_right (hn : (attrFind new d).map (·.vals) = some n.vals) (hd : n.desc = d) {ms : List (Modification δ ν)}
    {y : Option (Attr δ ν)} (hrun : cellRun sch (attrFind old d) ms = .ok y) (hy : ∀ o, y = some o → o.desc = d) :
    CellRight sch old new d (ms ++ [replaceMod n]) := by
  refine ⟨some (attrNew n.desc n.vals n.nvals), ?_, ?_⟩
  · rw [cellRun_append, hrun]
    change cellRun sch y [_] = _
    rw [cellRun_cons, cell_replace fun o ho => (hy o ho).trans hd.symm]
    rfl
  · rw [hn]
    exact .some (List.Perm.refl _)

end Values

end Sync
end ReOpenLDAP
