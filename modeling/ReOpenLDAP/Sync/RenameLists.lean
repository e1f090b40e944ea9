import ReOpenLDAP.Sync.DiffShape
import ReOpenLDAP.Sync.Rename

/-!
# Sync.RenameLists

The requests of a rename, seen from one attribute.

* `requests`, `requests_other`, `requests_opattr` — what both requests have for an attribute.
-/

namespace ReOpenLDAP
namespace Sync

open Slapd

variable {ρ π δ ν : Type} [DecidableEq δ] [DecidableEq ν]

section Drop

variable {modlist : List (Modification δ ν)} {dni : DnInfo π δ}

omit [DecidableEq δ] in
theorem dropValue_desc (val : ν) (mod : Modification δ ν) : (dropValue val mod).desc = mod.desc := by
  unfold dropValue
  split <;> rfl

theorem dropOld_split (mods : List (Modification δ ν)) :
    match dropOld modlist dni (modsOf mods dni.oldDesc) with
    | .error rc => dropOld modlist dni mods = .error rc
    | .ok (ms, got) => ∃ mods', dropOld modlist dni mods = .ok (mods', got) ∧ modsOf mods' dni.oldDesc = ms ∧
        ∀ d, d ≠ dni.oldDesc → modsOf mods' d = modsOf mods d := by
  induction mods with
  | nil => exact ⟨[], rfl, rfl, fun _ _ => rfl⟩
  | cons mod mods ih =>
    have hnext : match (dropOld modlist dni (modsOf mods dni.oldDesc)).map fun r =>
        (if mod.desc = dni.oldDesc then mod :: r.1 else r.1, r.2) with
        | .error rc => (dropOld modlist dni mods).map (fun r => (mod :: r.1, r.2)) = .error rc
        | .ok (ms, got) => ∃ mods', (dropOld modlist dni mods).map (fun r => (mod :: r.1, r.2)) = .ok (mods', got) ∧
            modsOf mods' dni.oldDesc = ms ∧ ∀ d, d ≠ dni.oldDesc → modsOf mods' d = modsOf (mod :: mods) d := by
      cases hres : dropOld modlist dni (modsOf mods dni.oldDesc) with
      | error rc =>
        rw [hres] at ih
        dsimp only at ih
        rw [ih]
        rfl
      | ok r =>
        rw [hres] at ih
        obtain ⟨mods', hdrop, hsame, hother⟩ := ih
        rw [hdrop]
        refine ⟨mod :: mods', rfl, ?_, fun d hd => ?_⟩
        · rw [modsOf_cons, hsame]
        · rw [modsOf_cons, modsOf_cons, hother d hd]
    have hout : ∀ d, mod.desc = dni.oldDesc → d ≠ dni.oldDesc → modsOf (mod :: mods) d = modsOf mods d := by
      intro d hdesc hd
      rw [modsOf_cons, if_neg fun heq => hd (heq.symm.trans hdesc)]
    rw [modsOf_cons]
    by_cases hdesc : mod.desc = dni.oldDesc
    · simp only [if_pos hdesc] at hnext ⊢
      unfold dropOld
      dsimp only
      rw [if_neg (not_not.mpr hdesc), if_neg (not_not.mpr hdesc)]
      split_ifs with hride hdrop hkeep
      · exact hnext
      · exact ⟨mods, rfl, rfl, fun d hd => (hout d hdesc hd).symm⟩
      · exact hnext
      · cases rdnValue modlist dni.oldDesc .delete with
        | none => rfl
        | some val =>
          have hdesc' : (dropValue val mod).desc = dni.oldDesc := (dropValue_desc val mod).trans hdesc
          refine ⟨_, rfl, ?_, fun d hd => ?_⟩
          · split_ifs
            · rfl
            · rw [modsOf_cons, if_pos hdesc']
          · rw [hout d hdesc hd]
            split_ifs
            · rfl
            · rw [modsOf_cons, if_neg fun heq => hd (heq.symm.trans hdesc')]
    · simp only [if_neg hdesc] at hnext ⊢
      rw [dropOld.eq_2]
      dsimp only
      rw [if_pos hdesc]
      have hid : (dropOld modlist dni (modsOf mods dni.oldDesc)).map (fun r => (r.1, r.2)) =
          dropOld modlist dni (modsOf mods dni.oldDesc) := by
        cases dropOld modlist dni (modsOf mods dni.oldDesc) <;> rfl
      rw [hid] at hnext
      exact hnext

theorem dropNew_split (mods : List (Modification δ ν)) :
    match dropNew modlist dni (modsOf mods dni.newDesc) with
    | .error rc => dropNew modlist dni mods = .error rc
    | .ok ms => ∃ mods', dropNew modlist dni mods = .ok mods' ∧ modsOf mods' dni.newDesc = ms ∧
        ∀ d, d ≠ dni.newDesc → modsOf mods' d = modsOf mods d := by
  induction mods with
  | nil => exact ⟨[], rfl, rfl, fun _ _ => rfl⟩
  | cons mod mods ih =>
    have hnext : match (dropNew modlist dni (modsOf mods dni.newDesc)).map fun ms =>
        if mod.desc = dni.newDesc then mod :: ms else ms with
        | .error rc => (dropNew modlist dni mods).map (mod :: ·) = .error rc
        | .ok ms => ∃ mods', (dropNew modlist dni mods).map (mod :: ·) = .ok mods' ∧
            modsOf mods' dni.newDesc = ms ∧ ∀ d, d ≠ dni.newDesc → modsOf mods' d = modsOf (mod :: mods) d := by
      cases hres : dropNew modlist dni (modsOf mods dni.newDesc) with
      | error rc =>
        rw [hres] at ih
        dsimp only at ih
        rw [ih]
        rfl
      | ok ms =>
        rw [hres] at ih
        obtain ⟨mods', hdrop, hsame, hother⟩ := ih
        rw [hdrop]
        refine ⟨mod :: mods', rfl, ?_, fun d hd => ?_⟩
        · rw [modsOf_cons, hsame]
        · rw [modsOf_cons, modsOf_cons, hother d hd]
    have hout : ∀ d, mod.desc = dni.newDesc → d ≠ dni.newDesc → modsOf (mod :: mods) d = modsOf mods d := by
      intro d hdesc hd
      rw [modsOf_cons, if_neg fun heq => hd (heq.symm.trans hdesc)]
    rw [modsOf_cons]
    by_cases hdesc : mod.desc = dni.newDesc
    · simp only [if_pos hdesc] at hnext ⊢
      unfold dropNew
      split_ifs with hride hdrop hkeep
      · exact hnext
      · exact ⟨mods, rfl, rfl, fun d hd => (hout d hdesc hd).symm⟩
      · exact ⟨mod :: mods, rfl, by rw [modsOf_cons, if_pos hdesc], fun _ _ => rfl⟩
      · cases rdnValue modlist dni.oldDesc .softadd with
        | none => rfl
        | some val =>
          have hdesc' : (dropValue val mod).desc = dni.newDesc := (dropValue_desc val mod).trans hdesc
          refine ⟨_, rfl, ?_, fun d hd => ?_⟩
          · rw [modsOf_cons, if_pos hdesc']
          · rw [hout d hdesc hd, modsOf_cons, if_neg fun heq => hd (heq.symm.trans hdesc')]
    · simp only [if_neg hdesc] at hnext ⊢
      rw [dropNew.eq_2, if_pos (.inl hdesc)]
      have hid : (dropNew modlist dni (modsOf mods dni.newDesc)).map (fun ms => ms) =
          dropNew modlist dni (modsOf mods dni.newDesc) := by
        cases dropNew modlist dni (modsOf mods dni.newDesc) <;> rfl
      rw [hid] at hnext
      exact hnext

end Drop

section Pull

variable {d d' : δ} {mods : List (Modification δ ν)} {descs : List δ}

omit [DecidableEq ν] in
theorem modsOf_eraseP : modsOf (mods.eraseP (·.desc = d)) d' = if d' = d then (modsOf mods d).tail else modsOf mods d' := by
  induction mods with
  | nil => split_ifs <;> rfl
  | cons mod mods ih =>
    rw [List.eraseP_cons, modsOf_cons, modsOf_cons]
    by_cases hd : mod.desc = d
    · rw [if_pos hd]
      simp only [hd, decide_true]
      by_cases hd' : d' = d
      · subst hd'
        rw [if_pos rfl]
        rfl
      · rw [if_neg hd', if_neg (Ne.symm hd')]
        rfl
    · rw [if_neg hd]
      simp only [hd, decide_false, cond_false]
      rw [modsOf_cons, ih]
      by_cases hd' : d' = d
      · subst hd'
        rw [if_neg hd, if_pos rfl, if_pos rfl]
      · rw [if_neg hd', if_neg hd']

omit [DecidableEq ν] in
theorem find_modsOf : mods.find? (·.desc = d) = (modsOf mods d).head? := List.head?_filter.symm

omit [DecidableEq ν] in
theorem pullOps_other (h : d ∉ descs) :
    modsOf (pullOps descs mods).1 d = [] ∧ modsOf (pullOps descs mods).2 d = modsOf mods d := by
  induction descs generalizing mods with
  | nil => exact ⟨rfl, rfl⟩
  | cons x descs ih =>
    obtain ⟨hx, hd⟩ := not_or.mp (mt List.mem_cons.mpr h)
    obtain ⟨hnil, hrest⟩ := @ih (mods.eraseP (·.desc = x)) hd
    unfold pullOps
    dsimp only
    rw [modsOf_append, hnil, hrest, modsOf_eraseP, if_neg hx]
    refine ⟨?_, rfl⟩
    rw [List.append_nil]
    refine modsOf_other fun mod hmod heq => ?_
    have hfound := List.find?_some (Option.mem_toList.mp hmod)
    exact hx (heq.symm.trans (of_decide_eq_true hfound))

omit [DecidableEq ν] in
theorem pullOps_self (h : d ∈ descs) (hn : descs.Nodup) (hone : (modsOf mods d).length ≤ 1) :
    modsOf (pullOps descs mods).1 d = modsOf mods d ∧ modsOf (pullOps descs mods).2 d = [] := by
  induction descs generalizing mods with
  | nil => cases h
  | cons x descs ih =>
    obtain ⟨hx, hn⟩ := List.nodup_cons.mp hn
    unfold pullOps
    dsimp only
    rw [modsOf_append, find_modsOf]
    by_cases hd : d = x
    · subst hd
      obtain ⟨hnil, hrest⟩ := @pullOps_other _ _ _ d (mods.eraseP (·.desc = d)) descs hx
      have hdesc : ∀ mod ∈ modsOf mods d, mod.desc = d := fun mod hmod => of_decide_eq_true (List.mem_filter.mp hmod).2
      rw [hnil, hrest, modsOf_eraseP, if_pos rfl, List.append_nil]
      rcases hms : modsOf mods d with _ | ⟨mod, _ | ⟨mod', ms⟩⟩
      · exact ⟨rfl, rfl⟩
      · refine ⟨?_, rfl⟩
        exact modsOf_same fun m hm => hdesc m (hms ▸ hm)
      · rw [hms] at hone
        simp at hone
    · have hsame : modsOf (mods.eraseP (·.desc = x)) d = modsOf mods d := by rw [modsOf_eraseP, if_neg hd]
      obtain ⟨hself, hrest⟩ := @ih (mods.eraseP (·.desc = x)) ((List.mem_cons.mp h).resolve_left hd) hn (hsame ▸ hone)
      rw [hself, hrest, hsame]
      refine ⟨?_, rfl⟩
      have hnone : modsOf (modsOf mods x).head?.toList d = [] := by
        refine modsOf_other fun mod hmod heq => ?_
        have hmem := List.mem_of_head? (Option.mem_toList.mp hmod)
        exact hd (heq.symm.trans (of_decide_eq_true (List.mem_filter.mp hmem).2))
      rw [hnone, List.nil_append]

end Pull

section Requests

variable {d : δ} {sch : RenameSchema δ ν} {l : Option (OpAttrs ν)} {modlist mods : List (Modification δ ν)}

/-- What `slap_mods_opattrs` has for an attribute. -/
def opattrMod (sch : RenameSchema δ ν) (l : Option (OpAttrs ν)) (d : δ) : List (Modification δ ν) :=
  match l with
  | none => []
  | some l =>
    if d = sch.entryCSN then l.csn.toList.map fun csn => ⟨.replace, sch.entryCSN, some [csn], none⟩
    else if d = sch.modifiersName then [⟨.replace, sch.modifiersName, some [l.name], some [l.nname]⟩]
    else if d = sch.modifyTimestamp then [⟨.replace, sch.modifyTimestamp, some [l.timestamp], none⟩]
    else []

def sets (mod : Modification δ ν) : Bool := mod.op = .add ∨ mod.op = .softadd ∨ mod.op = .addIfNotPresent ∨ mod.op = .replace

omit [DecidableEq ν] in
theorem any_modsOf (d : δ) (mods : List (Modification δ ν)) :
    (mods.any fun mod =>
        decide ((mod.op = .add ∨ mod.op = .softadd ∨ mod.op = .addIfNotPresent ∨ mod.op = .replace) ∧ mod.desc = d)) =
      (modsOf mods d).any sets := by
  rw [Bool.eq_iff_iff, List.any_eq_true, List.any_eq_true]
  constructor
  · rintro ⟨mod, hmod, h⟩
    obtain ⟨hop, hdesc⟩ := of_decide_eq_true h
    exact ⟨mod, List.mem_filter.mpr ⟨hmod, decide_eq_true hdesc⟩, decide_eq_true hop⟩
  · rintro ⟨mod, hmod, h⟩
    obtain ⟨hmem, hdesc⟩ := List.mem_filter.mp hmod
    exact ⟨mod, hmem, decide_eq_true ⟨of_decide_eq_true h, of_decide_eq_true hdesc⟩⟩

omit [DecidableEq ν] in
theorem modsOf_unless {ms : List (Modification δ ν)} {x : δ} (got : Bool) (h : ∀ mod ∈ ms, mod.desc = x) (d : δ) :
    modsOf (if got then [] else ms) d = if d = x then if got then [] else ms else [] := by
  have hdesc : ∀ mod ∈ if got then [] else ms, mod.desc = x := by
    cases got
    · exact h
    · simp
  by_cases hd : d = x
  · rw [if_pos hd]
    exact modsOf_same fun mod hmod => (hdesc mod hmod).trans hd.symm
  · rw [if_neg hd]
    exact modsOf_other fun mod hmod heq => hd (heq.symm.trans (hdesc mod hmod))

omit [DecidableEq ν] in
theorem modsOf_slapModsOpattrs (hn : (opattrs sch).Nodup) (d : δ) :
    modsOf (slapModsOpattrs sch l mods) d = modsOf mods d ++ if (modsOf mods d).any sets then [] else opattrMod sch l d := by
  unfold slapModsOpattrs opattrMod
  cases l with
  | none => simp
  | some l =>
    dsimp only
    obtain ⟨⟨hcm, hct⟩, hmt⟩ : (sch.entryCSN ≠ sch.modifiersName ∧ sch.entryCSN ≠ sch.modifyTimestamp) ∧
        sch.modifiersName ≠ sch.modifyTimestamp := by simpa [opattrs] using hn
    simp only [any_modsOf]
    rw [modsOf_append, modsOf_append, modsOf_append, List.append_assoc, List.append_assoc]
    refine congrArg (modsOf mods d ++ ·) ?_
    have hcsn := @modsOf_unless _ _ _ (l.csn.toList.map fun csn => ⟨.replace, sch.entryCSN, some [csn], none⟩) sch.entryCSN
      ((modsOf mods sch.entryCSN).any sets) (by simp) d
    have hname := @modsOf_unless _ _ _ [⟨.replace, sch.modifiersName, some [l.name], some [l.nname]⟩] sch.modifiersName
      ((modsOf mods sch.modifiersName).any sets) (by simp) d
    have htime := @modsOf_unless _ _ _ [⟨.replace, sch.modifyTimestamp, some [l.timestamp], none⟩] sch.modifyTimestamp
      ((modsOf mods sch.modifyTimestamp).any sets) (by simp) d
    rw [hcsn, hname, htime]
    by_cases hc : d = sch.entryCSN
    · subst hc
      rw [if_pos rfl, if_pos rfl, if_neg hcm, if_neg hct, List.append_nil, List.append_nil]
    rw [if_neg hc, if_neg hc]
    by_cases hm : d = sch.modifiersName
    · subst hm
      rw [if_pos rfl, if_pos rfl, if_neg hmt, List.append_nil]
      rfl
    rw [if_neg hm, if_neg hm]
    by_cases ht : d = sch.modifyTimestamp
    · subst ht
      rw [if_pos rfl, if_pos rfl]
      rfl
    · rw [if_neg ht, if_neg ht, ite_self]
      rfl

def requests (sch : RenameSchema δ ν) (modlist mods : List (Modification δ ν)) :
    List (Modification δ ν) × List (Modification δ ν) :=
  let r := pullOps (opattrs sch) mods
  if r.2 = [] then (modlist ++ r.1, []) else (modlist, r.2 ++ r.1)

/-- The modifications of both requests. -/
def sentMods (sch : RenameSchema δ ν) (l : Option (OpAttrs ν)) (modlist mods : List (Modification δ ν)) : List (Modification δ ν) :=
  slapModsOpattrs sch l (requests sch modlist mods).1 ++ (requests sch modlist mods).2

omit [DecidableEq ν] in
theorem requests_other (hn : (opattrs sch).Nodup) (h : d ∉ opattrs sch) :
    modsOf (sentMods sch l modlist mods) d = modsOf modlist d ++ modsOf mods d := by
  obtain ⟨hnil, hrest⟩ := @pullOps_other _ _ _ d mods _ h
  have hlocal : opattrMod sch l d = [] := by
    unfold opattrMod
    simp only [opattrs, List.mem_cons, List.not_mem_nil, or_false, not_or] at h
    cases l with
    | none => rfl
    | some l => dsimp only; rw [if_neg h.1, if_neg h.2.1, if_neg h.2.2]
  rw [sentMods, modsOf_append, modsOf_slapModsOpattrs hn, hlocal, ite_self, List.append_nil]
  unfold requests
  dsimp only
  split_ifs with hend
  · rw [hend] at hrest
    rw [modsOf_append, hnil, ← hrest, List.append_nil]
  · rw [modsOf_append, hnil, hrest, List.append_nil]

omit [DecidableEq ν] in
theorem requests_opattr (hn : (opattrs sch).Nodup) (h : d ∈ opattrs sch) (hlist : modsOf modlist d = []) :
    (modsOf mods d = [] → modsOf (sentMods sch l modlist mods) d = opattrMod sch l d) ∧
    ∀ mod, modsOf mods d = [mod] → mod.op = .replace → ∃ pre, (pre = [] ∨ pre = opattrMod sch l d) ∧
      modsOf (sentMods sch l modlist mods) d = pre ++ [mod] := by
  rw [sentMods, modsOf_append, modsOf_slapModsOpattrs hn]
  by_cases hend : (pullOps (opattrs sch) mods).2 = []
  · have hreq : requests sch modlist mods = (modlist ++ (pullOps (opattrs sch) mods).1, []) := if_pos hend
    rw [hreq]
    dsimp only
    rw [modsOf_append, hlist, List.nil_append]
    refine ⟨fun hnil => ?_, fun mod hmod hop => ⟨[], .inl rfl, ?_⟩⟩
    · rw [(pullOps_self h hn (by simp [hnil])).1, hnil]
      exact List.append_nil _
    · rw [(pullOps_self h hn (by simp [hmod])).1, hmod]
      have hset : [mod].any sets = true := by simp [sets, hop]
      rw [hset]
      rfl
  · have hreq : requests sch modlist mods = (modlist, (pullOps (opattrs sch) mods).2 ++ (pullOps (opattrs sch) mods).1) :=
      if_neg hend
    rw [hreq]
    dsimp only
    rw [modsOf_append, hlist]
    refine ⟨fun hnil => ?_, fun mod hmod hop => ⟨opattrMod sch l d, .inr rfl, ?_⟩⟩
    · obtain ⟨hself, hrest⟩ := @pullOps_self _ _ _ d mods _ h hn (by simp [hnil])
      rw [hself, hrest, hnil]
      exact List.append_nil _
    · obtain ⟨hself, hrest⟩ := @pullOps_self _ _ _ d mods _ h hn (by simp [hmod])
      rw [hself, hrest, hmod]
      rfl

end Requests

end Sync
end ReOpenLDAP
