import ReOpenLDAP.Sync.DiffEntry

/-!
# Sync.ModCells

The loop of `mdb_modify_internal`, seen from one attribute.

* `cell`                        — the same on the attribute alone.
-/

namespace ReOpenLDAP
namespace Sync

open Slapd List

variable {δ ν : Type} [DecidableEq δ] [DecidableEq ν]

/-- One turn of the loop of `mdb_modify_internal`. -/
def modifyOne (sch : ModSchema δ ν) (attrs : List (Attr δ ν)) (mod : Modification δ ν) : Except ModRc (List (Attr δ ν)) :=
  match mod.op with
  | .softadd =>
    match modifyAddValues sch attrs mod false with
    | .error .typeOrValueExists => .ok attrs
    | res => res
  | _ => applyMod sch attrs mod

def modifyInternal (sch : ModSchema δ ν) (attrs : List (Attr δ ν)) (mods : List (Modification δ ν)) :
    Except ModRc (List (Attr δ ν)) :=
  mods.foldlM (modifyOne sch) attrs

def cell (sch : ModSchema δ ν) (x : Option (Attr δ ν)) (mod : Modification δ ν) : Except ModRc (Option (Attr δ ν)) :=
  (modifyOne sch x.toList mod).map (attrFind · mod.desc)

def cellRun (sch : ModSchema δ ν) (x : Option (Attr δ ν)) (mods : List (Modification δ ν)) : Except ModRc (Option (Attr δ ν)) :=
  mods.foldlM (cell sch) x

/-- `res'` does to the attribute of `d` alone what `res` does to it among all, and `res` leaves the others. -/
def Local (attrs : List (Attr δ ν)) (d : δ) (res res' : Except ModRc (List (Attr δ ν))) : Prop :=
  match res with
  | .error rc => res' = .error rc
  | .ok attrs' => res' = .ok (attrFind attrs' d).toList ∧ Sets attrs attrs' d (attrFind attrs' d)

section Local

variable {sch : ModSchema δ ν} {attrs : List (Attr δ ν)} {d : δ} {a : Attr δ ν}

omit [DecidableEq ν] in
theorem find_toList (attrs : List (Attr δ ν)) (d : δ) : attrFind (attrFind attrs d).toList d = attrFind attrs d := by
  cases h : attrFind attrs d with
  | none => rfl
  | some a => exact (attrFind_cons a).trans (if_pos (attrFind_some h).2)

omit [DecidableEq ν] in
theorem local_delete (hn : (attrs.map (·.desc)).Nodup) (d : δ) :
    Local attrs d (.ok (attrDelete attrs d)) (.ok (attrDelete (attrFind attrs d).toList d)) := by
  have hs := sets_attrDelete hn d
  refine ⟨?_, hs.found.symm ▸ hs⟩
  rw [hs.found]
  cases h : attrFind attrs d with
  | none => rfl
  | some a => exact congrArg _ ((attrDelete_cons a).trans (if_pos (attrFind_some h).2))

omit [DecidableEq ν] in
theorem local_set (hn : (attrs.map (·.desc)).Nodup) {f : Attr δ ν → Attr δ ν} (hf : ∀ a, (f a).desc = a.desc)
    (ha : attrFind attrs d = some a) : Local attrs d (.ok (attrSet attrs d f)) (.ok (attrSet (some a).toList d f)) := by
  have hs := sets_attrSet hn hf ha
  refine ⟨?_, hs.found.symm ▸ hs⟩
  rw [hs.found]
  exact congrArg _ (if_pos (attrFind_some ha).2)

omit [DecidableEq ν] in
theorem local_append (hn : (attrs.map (·.desc)).Nodup) (ha : attrFind attrs a.desc = none) :
    Local attrs a.desc (.ok (attrs ++ [a])) (.ok [a]) := by
  have hs := sets_append hn ha
  refine ⟨?_, hs.found.symm ▸ hs⟩
  rw [hs.found]
  rfl

omit [DecidableEq ν] in
theorem local_same (hn : (attrs.map (·.desc)).Nodup) (d : δ) : Local attrs d (.ok attrs) (.ok (attrFind attrs d).toList) :=
  ⟨rfl, hn, fun _ _ => rfl, rfl⟩

theorem local_merge (hn : (attrs.map (·.desc)).Nodup) (vals : List ν) (nvals : Option (List ν)) :
    Local attrs d (attrMerge sch attrs d vals nvals) (attrMerge sch (attrFind attrs d).toList d vals nvals) := by
  unfold attrMerge
  rw [find_toList]
  cases ha : attrFind attrs d with
  | none => exact local_append (a := attrNew d vals nvals) hn ha
  | some a =>
    dsimp only
    cases a.nvals with
    | none =>
      cases if sch.righteous = true ∧ none = none ∧ nvals = some vals then none else nvals with
      | none => exact local_set hn (fun _ => rfl) ha
      | some ns => rfl
    | some ns =>
      cases if sch.righteous = true ∧ some ns = none ∧ nvals = some vals then none else nvals with
      | none => rfl
      | some nvals => exact local_set hn (fun _ => rfl) ha

theorem local_add (hn : (attrs.map (·.desc)).Nodup) (mod : Modification δ ν) (p : Bool) :
    Local attrs mod.desc (modifyAddValues sch attrs mod p) (modifyAddValues sch (attrFind attrs mod.desc).toList mod p) := by
  unfold modifyAddValues
  rw [find_toList]
  cases ha : attrFind attrs mod.desc with
  | none =>
    have hm := @local_merge _ _ _ _ sch attrs mod.desc hn (mod.values.getD []) mod.nvalues
    rw [ha] at hm
    exact hm
  | some a =>
    dsimp only
    cases sch.equality mod.desc with
    | none => rfl
    | some mr =>
      dsimp only
      cases checkNew mr a mod.nvalues.isSome p (mod.nvalues.getD (mod.values.getD [])) with
      | error rc => rfl
      | ok mask =>
        dsimp only
        split_ifs with hnil
        · have hsame := local_same hn mod.desc
          rw [ha] at hsame
          exact hsame
        · have hm := @local_merge _ _ _ _ sch attrs mod.desc hn (masked mask (mod.values.getD [])) (mod.nvalues.map (masked mask))
          rw [ha] at hm
          exact hm

/-- What `mdb_modify_internal` makes of the two results of `modify_delete_values`. -/
def deleteResult : Option ModRc × List (Attr δ ν) → Except ModRc (List (Attr δ ν))
  | (none, attrs) => .ok attrs
  | (some rc, _) => .error rc

omit [DecidableEq ν] in
theorem local_deleteValues (hn : (attrs.map (·.desc)).Nodup) (mod : Modification δ ν) (p : Bool) :
    Local attrs mod.desc (deleteResult (modifyDeleteValues sch attrs mod p))
      (deleteResult (modifyDeleteValues sch (attrFind attrs mod.desc).toList mod p)) := by
  unfold modifyDeleteValues
  rw [find_toList]
  cases mod.values with
  | none =>
    dsimp only
    split_ifs
    · exact local_delete hn mod.desc
    · rfl
  | some vals =>
    dsimp only
    cases sch.equality mod.desc with
    | none => rfl
    | some mr =>
      dsimp only
      cases ha : attrFind attrs mod.desc with
      | none =>
        have hsame := local_same hn mod.desc
        rw [ha] at hsame
        cases p with
        | true => exact hsame
        | false => rfl
      | some a =>
        dsimp only
        cases locate mr a mod.nvalues.isSome p (mod.nvalues.getD vals) with
        | error rc => rfl
        | ok idx =>
          dsimp only
          split_ifs with hlast hnil
          · rfl
          · rfl
          · have hdel := local_delete hn mod.desc
            rw [ha] at hdel
            exact hdel
          · exact local_set hn (fun _ => rfl) ha

theorem local_replace (hn : (attrs.map (·.desc)).Nodup) (mod : Modification δ ν) (p : Bool) :
    Local attrs mod.desc (modifyReplaceValues sch attrs mod p)
      (modifyReplaceValues sch (attrFind attrs mod.desc).toList mod p) := by
  have hdel := local_delete hn mod.desc
  obtain ⟨heq, hs⟩ := hdel
  have hnone : attrFind (attrDelete attrs mod.desc) mod.desc = none := attrFind_attrDelete_self hn
  have hempty : attrDelete (attrFind attrs mod.desc).toList mod.desc = [] := by
    rw [hnone] at heq
    exact Except.ok.inj heq
  unfold modifyReplaceValues
  split_ifs
  · have hadd := @local_add _ _ _ _ sch _ hs.nodup mod p
    rw [hnone] at hadd
    rw [hempty]
    cases hres : modifyAddValues sch (attrDelete attrs mod.desc) mod p with
    | error rc =>
      rw [hres] at hadd
      exact hadd
    | ok attrs' =>
      rw [hres] at hadd
      exact ⟨hadd.1, hs.trans hadd.2⟩
  · exact ⟨heq, hs⟩

theorem local_increment (hn : (attrs.map (·.desc)).Nodup) (mod : Modification δ ν) :
    Local attrs mod.desc (modifyIncrementValues sch attrs mod false)
      (modifyIncrementValues sch (attrFind attrs mod.desc).toList mod false) := by
  unfold modifyIncrementValues
  rw [find_toList]
  cases ha : attrFind attrs mod.desc with
  | none => rfl
  | some a =>
    dsimp only
    split_ifs
    · cases mod.values with
      | none => rfl
      | some vals =>
        cases vals with
        | nil => rfl
        | cons v vals =>
          dsimp only
          cases sch.atol v with
          | none => rfl
          | some incr =>
            by_cases hzero : incr = 0
            · subst hzero
              have hsame := local_same hn mod.desc
              rw [ha] at hsame
              exact hsame
            · simp only
              cases incremented sch incr a.norms with
              | error rc => rfl
              | ok ns => exact local_set hn (fun a => by split_ifs <;> rfl) ha
    · rfl

theorem local_one (hn : (attrs.map (·.desc)).Nodup) (mod : Modification δ ν) :
    Local attrs mod.desc (modifyOne sch attrs mod) (modifyOne sch (attrFind attrs mod.desc).toList mod) := by
  unfold modifyOne applyMod
  cases mod.op with
  | add => exact local_add hn mod false
  | delete =>
    have hdel := @local_deleteValues _ _ _ sch _ hn mod false
    revert hdel
    generalize modifyDeleteValues sch attrs mod false = res
    generalize modifyDeleteValues sch (attrFind attrs mod.desc).toList mod false = res'
    rcases res with ⟨_ | rc, attrs₁⟩ <;> rcases res' with ⟨_ | rc', attrs₂⟩ <;> exact id
  | replace => exact local_replace hn mod false
  | increment => exact local_increment hn mod
  | softadd =>
    have hadd := @local_add _ _ _ _ sch _ hn mod false
    dsimp only
    cases hres : modifyAddValues sch attrs mod false with
    | ok attrs' =>
      rw [hres] at hadd
      rw [hadd.1]
      exact ⟨rfl, hadd.2⟩
    | error rc =>
      rw [hres] at hadd
      have hcell : modifyAddValues sch (attrFind attrs mod.desc).toList mod false = .error rc := hadd
      rw [hcell]
      cases rc with
      | typeOrValueExists => exact local_same hn mod.desc
      | _ => rfl
  | softdel => rfl
  | addIfNotPresent => rfl

/-! ## All modifications -/

theorem modifyOne_ok (hn : (attrs.map (·.desc)).Nodup) {mod : Modification δ ν} {attrs' : List (Attr δ ν)}
    (h : modifyOne sch attrs mod = .ok attrs') :
    cell sch (attrFind attrs mod.desc) mod = .ok (attrFind attrs' mod.desc) ∧
      Sets attrs attrs' mod.desc (attrFind attrs' mod.desc) := by
  have hlocal := @local_one _ _ _ _ sch _ hn mod
  rw [h] at hlocal
  refine ⟨?_, hlocal.2⟩
  rw [cell, hlocal.1]
  exact congrArg Except.ok (find_toList attrs' mod.desc)

theorem modifyOne_of_cell (hn : (attrs.map (·.desc)).Nodup) {mod : Modification δ ν} {x : Option (Attr δ ν)}
    (h : cell sch (attrFind attrs mod.desc) mod = .ok x) :
    ∃ attrs', modifyOne sch attrs mod = .ok attrs' ∧ Sets attrs attrs' mod.desc x := by
  have hlocal := @local_one _ _ _ _ sch _ hn mod
  cases hres : modifyOne sch attrs mod with
  | error rc =>
    rw [hres] at hlocal
    have hcell : modifyOne sch (attrFind attrs mod.desc).toList mod = .error rc := hlocal
    rw [cell, hcell] at h
    cases h
  | ok attrs' =>
    obtain ⟨hcell, hs⟩ := modifyOne_ok hn hres
    obtain rfl := Except.ok.inj (hcell.symm.trans h)
    exact ⟨attrs', rfl, hs⟩

theorem cellRun_cons (x : Option (Attr δ ν)) (mod : Modification δ ν) (mods : List (Modification δ ν)) :
    cellRun sch x (mod :: mods) = cell sch x mod >>= fun x => cellRun sch x mods := rfl

theorem cellRun_append (x : Option (Attr δ ν)) (mods mods' : List (Modification δ ν)) :
    cellRun sch x (mods ++ mods') = cellRun sch x mods >>= fun x => cellRun sch x mods' := foldlM_append

theorem modifyInternal_ok {mods : List (Modification δ ν)} {attrs' : List (Attr δ ν)} (hn : (attrs.map (·.desc)).Nodup)
    (h : modifyInternal sch attrs mods = .ok attrs') (d : δ) :
    cellRun sch (attrFind attrs d) (mods.filter (·.desc = d)) = .ok (attrFind attrs' d) := by
  induction mods generalizing attrs with
  | nil =>
    obtain rfl := Except.ok.inj h
    rfl
  | cons mod mods ih =>
    cases hone : modifyOne sch attrs mod with
    | error rc =>
      rw [modifyInternal, foldlM_cons, hone] at h
      cases h
    | ok attrs₁ =>
      obtain ⟨hcell, hs⟩ := modifyOne_ok hn hone
      have hrest : modifyInternal sch attrs₁ mods = .ok attrs' := by
        rw [modifyInternal, foldlM_cons, hone] at h
        exact h
      have hih := ih hs.nodup hrest
      by_cases hd : mod.desc = d
      · subst hd
        rw [filter_cons_of_pos (by simp), cellRun_cons, hcell]
        exact hih
      · rw [filter_cons_of_neg (by simpa using hd), ← hs.frame d (Ne.symm hd)]
        exact hih

theorem modifyInternal_cells {mods : List (Modification δ ν)} (hn : (attrs.map (·.desc)).Nodup)
    (h : ∀ d, ∃ x, cellRun sch (attrFind attrs d) (mods.filter (·.desc = d)) = .ok x) :
    ∃ attrs', modifyInternal sch attrs mods = .ok attrs' := by
  induction mods generalizing attrs with
  | nil => exact ⟨attrs, rfl⟩
  | cons mod mods ih =>
    obtain ⟨x, hx⟩ := h mod.desc
    rw [filter_cons_of_pos (by simp), cellRun_cons] at hx
    cases hcell : cell sch (attrFind attrs mod.desc) mod with
    | error rc =>
      rw [hcell] at hx
      cases hx
    | ok y =>
      rw [hcell] at hx
      obtain ⟨attrs₁, hone, hs⟩ := modifyOne_of_cell hn hcell
      obtain ⟨attrs', hrest⟩ := ih hs.nodup fun d => by
        by_cases hd : d = mod.desc
        · subst hd
          rw [hs.found]
          exact ⟨x, hx⟩
        · obtain ⟨z, hz⟩ := h d
          rw [filter_cons_of_neg (by simpa using Ne.symm hd)] at hz
          rw [hs.frame d hd]
          exact ⟨z, hz⟩
      refine ⟨attrs', ?_⟩
      rw [modifyInternal, foldlM_cons, hone]
      exact hrest

end Local

end Sync
end ReOpenLDAP
