import ReOpenLDAP.Sync.RenameNaming

/-!
# Sync.RenameRight

When a replicated rename gives the provider's entry.

* `syncrepl_rename_right_iff` — the requests give the provider's entry exactly under that condition.
-/

namespace ReOpenLDAP
namespace Sync

open Slapd List

variable {ρ π δ ν : Type} [DecidableEq δ] [DecidableEq ν]

/-- The RDN is the value `v` of `d`. -/
structure Naming (sch : ModSchema δ ν) (rd : RdnReader ρ δ ν) (e : NamedEntry ρ π δ ν) (d : δ) (v : ν) (mr : EqualityRule ν) :
    Prop where
  pair : rd.bv2rdn e.rdn = [(d, v)]
  desc : rd.desc e.nrdn = d
  rule : sch.equality d = some mr
  symm : ∀ v w, mr.cmp v w = .eq → mr.cmp w v = .eq
  value : v ∈ valuesOf e.attrs d

/-- A local entry with the RDN `a` of `ad`, and a newer version with the RDN `b` of `bd`. -/
structure Renaming [DecidableEq ρ] [DecidableEq π] (sch : RenameSchema δ ν) (rd : RdnReader ρ δ ν)
    (old new : NamedEntry ρ π δ ν) (ad bd : δ) (a b : ν) (amr bmr : EqualityRule ν) : Prop where
  changed : renamed old new = true
  oldOk : EntryOk sch.toModSchema old.attrs
  newOk : EntryOk sch.toModSchema new.attrs
  fresh : ∀ a ∈ new.attrs, a.ixadd = false
  source : Naming sch.toModSchema rd old ad a amr
  target : Naming sch.toModSchema rd new bd b bmr
  stored : ∀ d ∉ Sync.opattrs sch, Stored sch.toModSchema old.attrs d
  opattrs : (opattrs sch).Nodup
  user : ad ∉ Sync.opattrs sch ∧ bd ∉ Sync.opattrs sch
  single : ∀ d ∈ Sync.opattrs sch, (∃ v, (attrFind new.attrs d).map (·.vals) = some [v]) ∧
    ∀ o, attrFind old.attrs d = some o → o.vals.length = 1
  newer : (attrFind old.attrs sch.entryCSN).map (·.vals) ≠ (attrFind new.attrs sch.entryCSN).map (·.vals)

/-- What is gone is deleted, the values of the RDNs are not in the way, and what the modrdn adds for want of a modification
is right. -/
structure RenameMet (sch : RenameSchema δ ν) (isCtx : Bool) (l : Option (OpAttrs ν)) (dni : DnInfo π δ)
    (old new : List (Attr δ ν))
    (mods : List (Modification δ ν)) (a b : ν) (mr : EqualityRule ν) : Prop where
  notSuffix : isCtx = false
  gone : ∀ o ∈ old, attrFind new o.desc = none → modsOf mods o.desc ≠ [] ∨ o.desc = dni.oldDesc ∧ o.vals.length = 1
  oldValue : OldValue dni new mods a b
  newValue : NewValue dni old mods a b mr
  name : ∀ l', l = some l' → modsOf mods sch.modifiersName = [] → valuesOf new sch.modifiersName = [l'.name]
  timestamp : ∀ l', l = some l' → modsOf mods sch.modifyTimestamp = [] → valuesOf new sch.modifyTimestamp = [l'.timestamp]

section Requests

variable [DecidableEq ρ] [DecidableEq π] {sch : RenameSchema δ ν} {rd : RdnReader ρ δ ν} {isCtx : Bool} {l : Option (OpAttrs ν)}
  {old new : NamedEntry ρ π δ ν} {mods modlist : List (Modification δ ν)}

theorem modifyInternal_append (sch : ModSchema δ ν) (attrs : List (Attr δ ν)) (ms ms' : List (Modification δ ν)) :
    modifyInternal sch attrs (ms ++ ms') = modifyInternal sch attrs ms >>= fun attrs => modifyInternal sch attrs ms' :=
  foldlM_append

theorem modifyInternal_right_iff {sch : ModSchema δ ν} {old new : List (Attr δ ν)} (hn : (old.map (·.desc)).Nodup)
    (ms : List (Modification δ ν)) :
    (∃ attrs, modifyInternal sch old ms = .ok attrs ∧ ∀ d, SameValues attrs new d) ↔
      ∀ d, CellRight sch old new d (modsOf ms d) := by
  constructor
  · rintro ⟨attrs, hrun, hsame⟩ d
    exact ⟨_, modifyInternal_ok hn hrun d, hsame d⟩
  · intro h
    obtain ⟨attrs, hrun⟩ := modifyInternal_cells hn fun d => ⟨_, (h d).choose_spec.1⟩
    refine ⟨attrs, hrun, fun d => ?_⟩
    exact (cellRight_iff (modifyInternal_ok hn hrun d)).mp (h d)

omit [DecidableEq ρ] [DecidableEq π] in
theorem exec_right_iff {sup : Option π} (hsup : sup.getD old.pdn = new.pdn) (hn : (old.attrs.map (·.desc)).Nodup)
    (l₁ l₂ : List (Modification δ ν)) :
    (∃ e, (do
        let e ← mdbModrdn sch isCtx l old new.rdn new.nrdn sup l₁
        if l₂ = [] then return e else mdbModify sch e l₂) = .ok e ∧
      e.rdn = new.rdn ∧ e.nrdn = new.nrdn ∧ e.pdn = new.pdn ∧ ∀ d, SameValues e.attrs new.attrs d) ↔
      isCtx = false ∧ ∀ d, CellRight sch.toModSchema old.attrs new.attrs d (modsOf (slapModsOpattrs sch l l₁ ++ l₂) d) := by
  rw [← modifyInternal_right_iff hn, modifyInternal_append]
  unfold mdbModrdn
  cases isCtx with
  | true => simp [bind, Except.bind]
  | false =>
    unfold mdbModify
    cases hrun : modifyInternal sch.toModSchema old.attrs (slapModsOpattrs sch l l₁) with
    | error rc => simp [bind, Except.bind]
    | ok attrs₁ =>
      by_cases hnil : l₂ = []
      · subst hnil
        have hend : modifyInternal sch.toModSchema attrs₁ [] = .ok attrs₁ := rfl
        simp [bind, Except.bind, pure, Except.pure, hend, hsup]
      · cases hend : modifyInternal sch.toModSchema attrs₁ l₂ <;> simp [bind, Except.bind, hnil, hend, hsup]

omit [DecidableEq ν] [DecidableEq ρ] [DecidableEq π] in
theorem requests_eq (ms : List (Modification δ ν)) : (match pullOps (opattrs sch) ms with
      | ([], _) => throw .badPointer
      | (ops, []) => pure (modlist ++ ops, [])
      | (ops, mods) => pure (modlist, mods ++ ops) : Except RenameRc _) =
    if (pullOps (opattrs sch) ms).1 = [] then .error .badPointer else .ok (requests sch modlist ms) := by
  unfold requests
  dsimp only
  rcases pullOps (opattrs sch) ms with ⟨_ | ⟨op, ops⟩, _ | ⟨mod, mods⟩⟩ <;> rfl

omit [DecidableEq ρ] [DecidableEq π] in
theorem syncreplRename_eq {dni : DnInfo π δ}
    (hlist : slapModrdn2mods sch.toModSchema (rd.bv2rdn new.rdn) (rd.bv2rdn old.rdn) dni.delOldRdn = .ok modlist) :
    syncreplRename sch rd dni mods old new =
      match dropOldOpt modlist dni mods with
      | .error rc => .error rc
      | .ok r =>
        match dropNewOpt modlist dni r.2 r.1 with
        | .error rc => .error rc
        | .ok mods => if (pullOps (opattrs sch) mods).1 = [] then .error .badPointer else .ok (requests sch modlist mods) := by
  unfold syncreplRename
  rw [hlist]
  have hreq := @requests_eq δ ν _ sch modlist
  simp only [bind, Except.bind, pure, Except.pure] at hreq ⊢
  unfold dropOldOpt dropNewOpt
  cases hdel : dni.delOldRdn with
  | true =>
    rw [if_pos rfl, if_pos rfl]
    cases dropOld modlist dni mods with
    | error rc => rfl
    | ok r =>
      obtain ⟨mods₁, _ | _⟩ := r
      · simp only [Bool.false_eq_true, if_false]
        cases dropNew modlist dni mods₁ with
        | error rc => rfl
        | ok mods₂ => exact hreq mods₂
      · exact hreq mods₁
  | false =>
    simp only [pure, Except.pure, Bool.false_eq_true, if_false]
    cases dropNew modlist dni mods with
    | error rc => rfl
    | ok mods₂ => exact hreq mods₂

/-- The two passes over the modifications that leave out what the modrdn does. -/
def Dropped (modlist : List (Modification δ ν)) (dni : DnInfo π δ) (mods mods₂ : List (Modification δ ν)) : Prop :=
  ∃ mods₁ got, dropOldOpt modlist dni mods = .ok (mods₁, got) ∧ dropNewOpt modlist dni got mods₁ = .ok mods₂

theorem replaced_iff_cells (hmods : dnMods sch isCtx old new = some mods) (hren : renamed old new = true)
    (hn : (old.attrs.map (·.desc)).Nodup)
    (hlist : slapModrdn2mods sch.toModSchema (rd.bv2rdn new.rdn) (rd.bv2rdn old.rdn) (dnInfo sch rd old new).delOldRdn =
      .ok modlist) :
    Replaced sch rd isCtx l old new ↔ isCtx = false ∧ ∃ mods₂, Dropped modlist (dnInfo sch rd old new) mods mods₂ ∧
      (pullOps (opattrs sch) mods₂).1 ≠ [] ∧ ∀ d, CellRight sch.toModSchema old.attrs new.attrs d (modsOf (sentMods sch l modlist mods₂) d) := by
  have hsup : (dnInfo sch rd old new).nnewSup.getD old.pdn = new.pdn := by
    unfold dnInfo
    dsimp only
    by_cases hpdn : old.pdn = new.pdn <;> simp [hpdn]
  unfold Replaced syncreplReplace Dropped
  rw [hmods]
  dsimp only
  rw [if_pos hren, syncreplRename_eq hlist]
  cases hold : dropOldOpt modlist (dnInfo sch rd old new) mods with
  | error rc => simp [bind, Except.bind]
  | ok r =>
    obtain ⟨mods₁, got⟩ := r
    dsimp only
    cases hnew : dropNewOpt modlist (dnInfo sch rd old new) got mods₁ with
    | error rc =>
      simp only [bind, Except.bind, Except.ok.injEq, Prod.mk.injEq, reduceCtorEq, false_and, exists_false, false_iff]
      rintro ⟨-, mods₂, ⟨_, _, ⟨rfl, rfl⟩, hnew'⟩, -⟩
      cases hnew.symm.trans hnew'
    | ok mods₂ =>
      have hdet : ∀ P : List (Modification δ ν) → Prop, (∃ mods₂', (∃ mods₁' got', Except.ok (mods₁, got) =
          (.ok (mods₁', got') : Except RenameRc _) ∧ dropNewOpt modlist (dnInfo sch rd old new) got' mods₁' = .ok mods₂') ∧ P mods₂') ↔
          P mods₂ := by
        intro P
        constructor
        · rintro ⟨mods₂', ⟨_, _, heq, hnew'⟩, hrest⟩
          obtain ⟨rfl, rfl⟩ := Prod.mk.inj (Except.ok.inj heq)
          obtain rfl := Except.ok.inj (hnew.symm.trans hnew')
          exact hrest
        · exact fun hrest => ⟨mods₂, ⟨mods₁, got, rfl, hnew⟩, hrest⟩
      rw [hdet]
      dsimp only
      by_cases hops : (pullOps (opattrs sch) mods₂).1 = []
      · rw [if_pos hops]
        simp [bind, Except.bind, hops]
      · rw [if_neg hops]
        have hexec := @exec_right_iff _ _ _ _ _ _ sch isCtx l old new _ hsup hn (requests sch modlist mods₂).1
            (requests sch modlist mods₂).2
        exact hexec.trans (and_congr_right fun _ => (and_iff_right hops).symm)

end Requests

section Names

variable {sch : RenameSchema δ ν} {old new : List (Attr δ ν)} {mods : List (Modification δ ν)} {dni : DnInfo π δ} {ad bd d : δ}
  {a b v : ν}
  {amr bmr mr : EqualityRule ν}

omit [DecidableEq δ] [DecidableEq ν] in
theorem rdnMod_ok {sch : ModSchema δ ν} (op : ModOp) (hr : sch.equality d = some mr) (hv : mr.norm v = some (nf mr v)) :
    rdnMod sch op (d, v) = .ok (valuesMod op d mr [v]) := by
  unfold rdnMod valuesMod stored
  rw [hr]
  dsimp only
  cases hf : mr.normalize with
  | none => rfl
  | some f =>
    have hfv : f v = some (nf mr v) := by simpa [EqualityRule.norm, hf] using hv
    simp [hfv]

def rdnModlist (dni : DnInfo π δ) (amr bmr : EqualityRule ν) (a b : ν) : List (Modification δ ν) :=
  rdnMods amr dni.oldDesc (oldOpt dni a) none ++ rdnMods bmr dni.newDesc none (some b)

omit [DecidableEq ν] [DecidableEq δ] in
theorem slapModrdn2mods_ok (hra : sch.equality dni.oldDesc = some amr) (hrb : sch.equality dni.newDesc = some bmr)
    (ha : amr.norm a = some (nf amr a)) (hb : bmr.norm b = some (nf bmr b)) :
    slapModrdn2mods sch.toModSchema [(dni.newDesc, b)] [(dni.oldDesc, a)] dni.delOldRdn = .ok (rdnModlist dni amr bmr a b) := by
  unfold slapModrdn2mods rdnModlist rdnMods oldOpt
  simp only [mapM_cons, mapM_nil, rdnMod_ok .softadd hrb hb, rdnMod_ok .delete hra ha]
  cases dni.delOldRdn <;> rfl

omit [DecidableEq ν] in
theorem modsOf_rdnMods (oa ob : Option ν) (d d' : δ) :
    modsOf (rdnMods mr d oa ob) d' = if d' = d then rdnMods mr d oa ob else [] := by
  have hdesc : ∀ mod ∈ rdnMods mr d oa ob, mod.desc = d := by
    unfold rdnMods valuesMod
    cases oa <;> cases ob <;> simp
  by_cases hd : d' = d
  · rw [if_pos hd]
    exact modsOf_same fun mod hmod => (hdesc mod hmod).trans hd.symm
  · rw [if_neg hd]
    exact modsOf_other fun mod hmod heq => hd (heq.symm.trans (hdesc mod hmod))

omit [DecidableEq ν] in
theorem rdnValue_delete (h : dni.delOldRdn = true) : rdnValue (rdnModlist dni amr bmr a b) dni.oldDesc .delete = some a := by
  unfold rdnModlist rdnMods oldOpt
  rw [if_pos h]
  simp [rdnValue, valuesMod]

omit [DecidableEq ν] in
theorem rdnValue_softadd :
    rdnValue (rdnModlist dni amr bmr a b) dni.oldDesc .softadd = if dni.oldDesc = dni.newDesc then some b else none := by
  unfold rdnModlist rdnMods oldOpt
  by_cases hsame : dni.oldDesc = dni.newDesc
  · cases dni.delOldRdn <;> simp [rdnValue, valuesMod, hsame]
  · cases dni.delOldRdn <;> simp [rdnValue, valuesMod, hsame, Ne.symm hsame]

variable {modlist mods₁ mods₂ : List (Modification δ ν)} {got : Bool}

theorem dropOldOpt_modsOf (h : dropOldOpt modlist dni mods = .ok (mods₁, got)) :
    dropOldOpt modlist dni (modsOf mods dni.oldDesc) = .ok (modsOf mods₁ dni.oldDesc, got) ∧
      ∀ d, d ≠ dni.oldDesc → modsOf mods₁ d = modsOf mods d := by
  unfold dropOldOpt at h ⊢
  split_ifs at h ⊢
  · have hsplit := @dropOld_split _ _ _ _ _ modlist dni mods
    cases hres : dropOld modlist dni (modsOf mods dni.oldDesc) with
    | error rc =>
      rw [hres] at hsplit
      cases h.symm.trans hsplit
    | ok r =>
      rw [hres] at hsplit
      obtain ⟨mods', hdrop, hself, hother⟩ := hsplit
      obtain ⟨rfl, rfl⟩ := Prod.mk.inj (Except.ok.inj (h.symm.trans hdrop))
      exact ⟨by rw [hself], hother⟩
  · obtain ⟨rfl, rfl⟩ := Prod.mk.inj (Except.ok.inj h)
    exact ⟨rfl, fun _ _ => rfl⟩

theorem dropOldOpt_exists {ms : List (Modification δ ν)} (h : dropOldOpt modlist dni (modsOf mods dni.oldDesc) = .ok (ms, got)) :
    ∃ mods₁, dropOldOpt modlist dni mods = .ok (mods₁, got) := by
  unfold dropOldOpt at h ⊢
  split_ifs at h ⊢
  · have hsplit := @dropOld_split _ _ _ _ _ modlist dni mods
    rw [h] at hsplit
    obtain ⟨mods', hdrop, -, -⟩ := hsplit
    exact ⟨mods', hdrop⟩
  · exact ⟨mods, by rw [(Prod.mk.inj (Except.ok.inj h)).2]; rfl⟩

theorem dropNewOpt_modsOf (h : dropNewOpt modlist dni got mods = .ok mods₂) :
    dropNewOpt modlist dni got (modsOf mods dni.newDesc) = .ok (modsOf mods₂ dni.newDesc) ∧
      ∀ d, d ≠ dni.newDesc → modsOf mods₂ d = modsOf mods d := by
  unfold dropNewOpt at h ⊢
  split_ifs at h ⊢
  · obtain rfl := Except.ok.inj h
    exact ⟨rfl, fun _ _ => rfl⟩
  · have hsplit := @dropNew_split _ _ _ _ _ modlist dni mods
    cases hres : dropNew modlist dni (modsOf mods dni.newDesc) with
    | error rc =>
      rw [hres] at hsplit
      cases h.symm.trans hsplit
    | ok ms =>
      rw [hres] at hsplit
      obtain ⟨mods', hdrop, hself, hother⟩ := hsplit
      obtain rfl := Except.ok.inj (h.symm.trans hdrop)
      exact ⟨by rw [hself], hother⟩

theorem dropNewOpt_exists {ms : List (Modification δ ν)} (h : dropNewOpt modlist dni got (modsOf mods dni.newDesc) = .ok ms) :
    ∃ mods₂, dropNewOpt modlist dni got mods = .ok mods₂ := by
  unfold dropNewOpt at h ⊢
  split_ifs at h ⊢
  · exact ⟨mods, rfl⟩
  · have hsplit := @dropNew_split _ _ _ _ _ modlist dni mods
    rw [h] at hsplit
    obtain ⟨mods', hdrop, -, -⟩ := hsplit
    exact ⟨mods', hdrop⟩

section Both

variable (hra : sch.equality dni.oldDesc = some amr) (hrb : sch.equality dni.newDesc = some bmr)
  (hsa : ∀ v w, amr.cmp v w = .eq → amr.cmp w v = .eq) (hsb : ∀ v w, bmr.cmp v w = .eq → bmr.cmp w v = .eq)
  (hO : EntryOk sch.toModSchema old) (hN : EntryOk sch.toModSchema new) (hst : ∀ d, d = dni.oldDesc ∨ d = dni.newDesc → Stored sch.toModSchema old d)
  (hs : ∀ d, Shape sch.toDiffSchema old new d (modsOf mods d)) (ha : a ∈ valuesOf old dni.oldDesc)
  (hb : b ∈ valuesOf new dni.newDesc)
  (hcount : dni.oldNcount = (valuesOf old dni.oldDesc).length) (hdel : attrFind new dni.oldDesc = none → dni.delOldRdn = true)

include hra hrb hsa hsb hO hN hst hs ha hb hcount hdel

theorem named_right_iff :
    (∃ mods₂, Dropped (rdnModlist dni amr bmr a b) dni mods mods₂ ∧ ∀ d, d = dni.oldDesc ∨ d = dni.newDesc →
        CellRight sch.toModSchema old new d (modsOf (rdnModlist dni amr bmr a b) d ++ modsOf mods₂ d)) ↔
      (attrFind new dni.oldDesc = none → modsOf mods dni.oldDesc ≠ [] ∨ (valuesOf old dni.oldDesc).length = 1) ∧
        OldValue dni new mods a b ∧ NewValue dni old mods a b bmr := by
  obtain ⟨o, ho⟩ := find_of_value ha
  have hva := valuesOf_find ho
  obtain ⟨hh, hno⟩ := holds_old hra hO (hst _ (.inl rfl)) ho
  have hrdn := fun h => @rdnValue_delete π δ ν _ dni a b amr bmr h
  have hrdn' := @rdnValue_softadd π δ ν _ dni a b amr bmr
  by_cases hsame : dni.oldDesc = dni.newDesc
  · have hmr : amr = bmr := Option.some.inj (hra.symm.trans (hsame ▸ hrb))
    subst hmr
    have hlist : modsOf (rdnModlist dni amr amr a b) dni.newDesc = rdnMods amr dni.newDesc (oldOpt dni a) (some b) := by
      unfold rdnModlist
      rw [modsOf_append, modsOf_rdnMods, modsOf_rdnMods, if_pos hsame.symm, if_pos rfl, hsame]
      simp [rdnMods]
    have hshape := valueShape_of_shape hrb hO (hst _ (.inr rfl)) (hs dni.newDesc)
    have hiff := @same_right_iff _ _ _ _ _ sch amr old new dni mods
        (rdnModlist dni amr amr a b) a b dni.newDesc o _ hrb hsb rfl hrdn' hN
      (hsame ▸ ho) (hsame ▸ hh) hno (hva ▸ ha) hshape rfl hb hsame (hva ▸ hcount) (hsame ▸ hrdn)
    have hgone : attrFind new dni.oldDesc = none → modsOf mods dni.oldDesc ≠ [] ∨ (valuesOf old dni.oldDesc).length = 1 := by
      intro hn
      rw [← hsame, valuesOf_none hn] at hb
      cases hb
    rw [and_iff_right hgone, ← hiff]
    constructor
    · rintro ⟨mods₂, ⟨mods₁, got, hold, hnew⟩, hright⟩
      have hcell := hright dni.newDesc (.inr rfl)
      rw [hlist] at hcell
      exact ⟨_, got, _, hsame ▸ (dropOldOpt_modsOf hold).1, (dropNewOpt_modsOf hnew).1, hcell⟩
    · rintro ⟨ms₁, got, ms', hold, hnew, hcell⟩
      rw [← hsame] at hold
      obtain ⟨mods₁, hold'⟩ := dropOldOpt_exists hold
      have hms₁ := (Prod.mk.inj (Except.ok.inj ((dropOldOpt_modsOf hold').1.symm.trans hold))).1
      rw [hsame] at hms₁
      rw [← hms₁] at hnew
      obtain ⟨mods₂, hnew'⟩ := dropNewOpt_exists hnew
      have hms' := Except.ok.inj ((dropNewOpt_modsOf hnew').1.symm.trans hnew)
      refine ⟨mods₂, ⟨mods₁, got, hold', hnew'⟩, fun d hd => ?_⟩
      obtain rfl : d = dni.newDesc := hd.elim (fun h => h.trans hsame) id
      rw [hlist, hms']
      exact hcell
  · have hlist : modsOf (rdnModlist dni amr bmr a b) dni.oldDesc = rdnMods amr dni.oldDesc (oldOpt dni a) none := by
      unfold rdnModlist
      rw [modsOf_append, modsOf_rdnMods, modsOf_rdnMods, if_pos rfl, if_neg hsame, List.append_nil]
    have hlist' : modsOf (rdnModlist dni amr bmr a b) dni.newDesc = rdnMods bmr dni.newDesc none (some b) := by
      unfold rdnModlist
      rw [modsOf_append, modsOf_rdnMods, modsOf_rdnMods, if_neg (Ne.symm hsame), if_pos rfl, List.nil_append]
    obtain ⟨ms, hdrop, hiff⟩ := @old_right_iff _ _ _ _ _ sch amr old new dni mods
        (rdnModlist dni amr bmr a b) a b dni.oldDesc o _ hra hsa ho hh hno
      (hva ▸ ha) hN (valueShape_of_shape hra hO (hst _ (.inl rfl)) (hs dni.oldDesc)) rfl rfl hsame (hva ▸ hcount) hdel hrdn
    have hiff' := @new_right_iff _ _ _ _ _ sch bmr old new dni mods
        (rdnModlist dni amr bmr a b) a b dni.newDesc _ hrb hsb rfl hrdn' hO hN (hst _ (.inr rfl))
      (valueShape_of_shape hrb hO (hst _ (.inr rfl)) (hs dni.newDesc)) rfl hb hsame
    rw [hva, ← and_assoc, ← hiff, ← hiff']
    constructor
    · rintro ⟨mods₂, ⟨mods₁, got, hold, hnew⟩, hright⟩
      obtain ⟨hold', hother⟩ := dropOldOpt_modsOf hold
      obtain ⟨hms, rfl⟩ := Prod.mk.inj (Except.ok.inj (hold'.symm.trans hdrop))
      obtain ⟨hnew', hother'⟩ := dropNewOpt_modsOf hnew
      rw [hother _ (Ne.symm hsame)] at hnew'
      have hcell := hright dni.oldDesc (.inl rfl)
      have hcell' := hright dni.newDesc (.inr rfl)
      rw [hlist, hother' _ hsame, hms] at hcell
      rw [hlist'] at hcell'
      exact ⟨hcell, _, hnew', hcell'⟩
    · rintro ⟨hcell, ms', hnew, hcell'⟩
      obtain ⟨mods₁, hold⟩ := dropOldOpt_exists hdrop
      obtain ⟨hold', hother⟩ := dropOldOpt_modsOf hold
      have hms := (Prod.mk.inj (Except.ok.inj (hold'.symm.trans hdrop))).1
      have hnew₁ : dropNewOpt (rdnModlist dni amr bmr a b) dni false (modsOf mods₁ dni.newDesc) = .ok ms' := by
        rw [hother _ (Ne.symm hsame)]
        exact hnew
      obtain ⟨mods₂, hnew₂⟩ := dropNewOpt_exists hnew₁
      obtain ⟨hnew', hother'⟩ := dropNewOpt_modsOf hnew₂
      have hms' := Except.ok.inj (hnew'.symm.trans hnew₁)
      refine ⟨mods₂, ⟨mods₁, false, hold, hnew₂⟩, ?_⟩
      rintro d (rfl | rfl)
      · rw [hlist, hother' _ hsame, hms]
        exact hcell
      · rw [hlist', hms']
        exact hcell'

end Both

end Names

section Others

variable {sch : RenameSchema δ ν} {l : Option (OpAttrs ν)} {old new attrs : List (Attr δ ν)}
  {mods modlist mods₂ ms : List (Modification δ ν)}
  {d : δ} {w : ν}

theorem modifyInternal_diff {sch : ModSchema δ ν} (hops : ∀ mod ∈ mods, mod.op ≠ .softadd) (attrs : List (Attr δ ν)) :
    modifyInternal sch attrs mods = applyMods sch attrs mods := by
  unfold modifyInternal applyMods
  induction mods generalizing attrs with
  | nil => rfl
  | cons mod mods ih =>
    have hone : modifyOne sch attrs mod = applyMod sch attrs mod := by
      unfold modifyOne
      split
      · exact absurd ‹_› (hops mod mem_cons_self)
      · rfl
    rw [foldlM_cons, foldlM_cons, hone]
    cases applyMod sch attrs mod with
    | error rc => rfl
    | ok attrs' => exact ih (fun m hm => hops m (mem_cons_of_mem mod hm)) attrs'

theorem shape_ops (h : Shape sch.toDiffSchema old new d ms) : ∀ mod ∈ ms, mod.op ≠ .softadd := by
  intro mod hmod
  cases h with
  | left => cases hmod
  | delete => simp [List.mem_singleton.mp hmod]
  | replace => simp [List.mem_singleton.mp hmod, replaceMod]
  | compare =>
    unfold delMods addMods at hmod
    rcases List.mem_append.mp hmod with h | h <;> split at h
    · simp [List.mem_singleton.mp h]
    · cases h
    · simp [List.mem_singleton.mp h]
    · cases h

theorem other_right_iff (hO : EntryOk sch.toModSchema old) (hs : ∀ d, Shape sch.toDiffSchema old new d (modsOf mods d))
    (hrun : applyMods sch.toModSchema old mods = .ok attrs)
    (hsame : SameValues attrs new d ∨ attrFind new d = none ∧ modsOf mods d = []) :
    CellRight sch.toModSchema old new d (modsOf mods d) ↔
      ∀ o, attrFind old d = some o → attrFind new d = none → modsOf mods d ≠ [] := by
  have hops : ∀ mod ∈ mods, mod.op ≠ .softadd := fun mod hmod =>
    shape_ops (hs mod.desc) mod (List.mem_filter.mpr ⟨hmod, decide_eq_true rfl⟩)
  have hcell := modifyInternal_ok hO.nodup ((modifyInternal_diff hops old).trans hrun) d
  constructor
  · intro hright o ho hn hnil
    rw [hnil, cellRight_iff (x := some o) (by rw [ho]; rfl), hn] at hright
    cases hright
  · intro h
    rcases hsame with hsame | ⟨hn, hnil⟩
    · exact (cellRight_iff hcell).mpr hsame
    · rw [hnil]
      cases ho : attrFind old d with
      | some o => exact absurd hnil (h o ho hn)
      | none => exact ⟨none, by rw [ho]; rfl, by rw [hn]; exact .none⟩

theorem single_shape {sch : DiffSchema δ ν} (h : Shape sch old new d ms) (hn : (attrFind new d).map (·.vals) = some [w])
    (ho : ∀ o, attrFind old d = some o → o.vals.length = 1) :
    ms = [] ∧ (attrFind old d).map (·.vals) = some [w] ∨ ∃ n, n.desc = d ∧ n.vals = [w] ∧ ms = [replaceMod n] := by
  cases h with
  | left hnone =>
    rw [hnone] at hn
    cases hn
  | delete _ hnone =>
    rw [hnone] at hn
    cases hn
  | @replace n hd hnew => exact .inr ⟨n, hd, Option.some.inj ((hd ▸ hnew.vals).symm.trans hn), rfl⟩
  | @compare o n dels adds last hfind hd hnew hmatch hlt hrule =>
    have hnw : n.vals = [w] := Option.some.inj ((hd ▸ hnew.vals).symm.trans hn)
    obtain ⟨u, hu⟩ := List.length_eq_one_iff.mp (ho o hfind)
    rw [hnw, hu] at hmatch
    rw [hu] at hlt
    by_cases huw : u = w
    · subst huw
      simp only [matchValues, findMatch, length_singleton, replicate_one, and_self, if_true, set_cons_zero,
        Prod.mk.injEq] at hmatch
      obtain ⟨rfl, rfl, -⟩ := hmatch
      exact .inl ⟨rfl, by rw [hfind, ← hu]; rfl⟩
    · simp only [matchValues, findMatch, length_singleton, replicate_one, huw, and_false, if_false,
        Prod.mk.injEq] at hmatch
      obtain ⟨rfl, -⟩ := hmatch
      simp at hlt

omit [DecidableEq ν] in
theorem opattrMod_cases (sch : RenameSchema δ ν) (l : Option (OpAttrs ν)) (d : δ) :
    opattrMod sch l d = [] ∨ ∃ n, n.desc = d ∧ opattrMod sch l d = [replaceMod n] := by
  unfold opattrMod
  cases l with
  | none => exact .inl rfl
  | some l =>
    dsimp only
    split_ifs with hc hm ht
    · cases l.csn with
      | none => exact .inl rfl
      | some csn => exact .inr ⟨attrNew sch.entryCSN [csn] none, hc.symm, rfl⟩
    · exact .inr ⟨attrNew sch.modifiersName [l.name] (some [l.nname]), hm.symm, rfl⟩
    · exact .inr ⟨attrNew sch.modifyTimestamp [l.timestamp] none, ht.symm, rfl⟩
    · exact .inl rfl

theorem opattr_right (hnd : (opattrs sch).Nodup) (hd : d ∈ opattrs sch) (hlist : modsOf modlist d = []) {n : Attr δ ν}
    (hnd' : n.desc = d) (hn : (attrFind new d).map (·.vals) = some n.vals) (hms : modsOf mods₂ d = [replaceMod n]) :
    CellRight sch.toModSchema old new d (modsOf (sentMods sch l modlist mods₂) d) := by
  obtain ⟨pre, hpre, htotal⟩ := (requests_opattr (l := l) hnd hd hlist).2 (replaceMod n) hms rfl
  rw [htotal]
  have hdesc : ∀ o, attrFind old d = some o → o.desc = d := fun o ho => (attrFind_some ho).2
  obtain rfl | ⟨n', hn', rfl⟩ : pre = [] ∨ ∃ n', n'.desc = d ∧ pre = [replaceMod n'] := by
    rcases hpre with rfl | rfl
    · exact .inl rfl
    · exact opattrMod_cases sch l d
  · exact replace_right hn hnd' rfl hdesc
  · have hcell : cellRun sch.toModSchema (attrFind old d) [replaceMod n'] = .ok (some (attrNew n'.desc n'.vals n'.nvals)) := by
      rw [cellRun_cons, cell_replace fun o ho => (hdesc o ho).trans hn'.symm]
      rfl
    refine replace_right hn hnd' hcell ?_
    rintro o h
    exact Option.some.inj h ▸ hn'

theorem opattr_right_iff (hnd : (opattrs sch).Nodup) (hd : d ∈ opattrs sch) (hlist : modsOf modlist d = [])
    {value : OpAttrs ν → ν}
    {nvalues : OpAttrs ν → Option (List ν)}
    (hlocal : opattrMod sch l d = l.toList.map fun l => replaceMod (attrNew d [value l] (nvalues l)))
    (hs : Shape sch.toDiffSchema old new d (modsOf mods₂ d)) (hn : (attrFind new d).map (·.vals) = some [w])
    (ho : ∀ o, attrFind old d = some o → o.vals.length = 1) :
    CellRight sch.toModSchema old new d (modsOf (sentMods sch l modlist mods₂) d) ↔
      ∀ l', l = some l' → modsOf mods₂ d = [] → valuesOf new d = [value l'] := by
  rcases single_shape hs hn ho with ⟨hnil, hkeep⟩ | ⟨n, hnd', hvals, hms⟩
  · rw [(requests_opattr (l := l) hnd hd hlist).1 hnil, hlocal, valuesOf_some hn]
    cases l with
    | none =>
      refine iff_of_true ⟨attrFind old d, rfl, ?_⟩ (fun _ h => by cases h)
      rw [hkeep, hn]
      exact .some (List.Perm.refl _)
    | some l =>
      have hcell : cellRun sch.toModSchema (attrFind old d) [replaceMod (attrNew d [value l] (nvalues l))] =
          .ok (some (attrNew d [value l] (nvalues l))) := by
        have hdesc : ∀ o, attrFind old d = some o → o.desc = (attrNew d [value l] (nvalues l)).desc :=
            fun o ho => (attrFind_some ho).2
        rw [cellRun_cons, cell_replace hdesc]
        rfl
      rw [Option.toList_some, map_singleton, cellRight_iff hcell, hn]
      constructor
      · rintro h l' hl' -
        obtain rfl := Option.some.inj hl'
        cases h with
        | some h => exact (List.perm_singleton.mp h).symm
      · intro h
        rw [h l rfl hnil]
        exact .some (List.Perm.refl _)
  · refine iff_of_true (opattr_right hnd hd hlist hnd' (hvals ▸ hn) hms) fun _ _ hnil => ?_
    rw [hms] at hnil
    cases hnil

end Others

/-! ## All attributes -/

section All

variable {sch : RenameSchema δ ν} {l : Option (OpAttrs ν)} {old new attrs : List (Attr δ ν)}
  {mods mods₁ mods₂ : List (Modification δ ν)}
  {got : Bool} {dni : DnInfo π δ} {amr bmr : EqualityRule ν} {a b : ν} {d : δ}

theorem Dropped.frame {modlist : List (Modification δ ν)} (h : Dropped modlist dni mods mods₂) (ha : d ≠ dni.oldDesc)
    (hb : d ≠ dni.newDesc) : modsOf mods₂ d = modsOf mods d := by
  obtain ⟨_, _, hold, hnew⟩ := h
  exact ((dropNewOpt_modsOf hnew).2 d hb).trans ((dropOldOpt_modsOf hold).2 d ha)

omit [DecidableEq ν] in
theorem modsOf_rdnModlist (ha : d ≠ dni.oldDesc) (hb : d ≠ dni.newDesc) : modsOf (rdnModlist dni amr bmr a b) d = [] := by
  unfold rdnModlist
  rw [modsOf_append, modsOf_rdnMods, modsOf_rdnMods, if_neg ha, if_neg hb]
  rfl

omit [DecidableEq ν] in
theorem opattrMod_name (hnd : (opattrs sch).Nodup) (l : Option (OpAttrs ν)) :
    opattrMod sch l sch.modifiersName = l.toList.map fun l =>
      replaceMod (attrNew sch.modifiersName [l.name] (some [l.nname])) := by
  have hcm : sch.modifiersName ≠ sch.entryCSN := by
    rintro heq
    simp [opattrs, heq] at hnd
  unfold opattrMod
  cases l with
  | none => rfl
  | some l =>
    dsimp only
    rw [if_neg hcm, if_pos rfl]
    rfl

omit [DecidableEq ν] in
theorem opattrMod_timestamp (hnd : (opattrs sch).Nodup) (l : Option (OpAttrs ν)) :
    opattrMod sch l sch.modifyTimestamp = l.toList.map fun l => replaceMod (attrNew sch.modifyTimestamp [l.timestamp] none) := by
  have hct : sch.modifyTimestamp ≠ sch.entryCSN := by
    rintro heq
    simp [opattrs, heq] at hnd
  have hmt : sch.modifyTimestamp ≠ sch.modifiersName := by
    rintro heq
    simp [opattrs, heq] at hnd
  unfold opattrMod
  cases l with
  | none => rfl
  | some l =>
    dsimp only
    rw [if_neg hct, if_neg hmt, if_pos rfl]
    rfl

theorem requests_right_iff (hO : EntryOk sch.toModSchema old) (hnd : (opattrs sch).Nodup) (hau : dni.oldDesc ∉ opattrs sch)
    (hbu : dni.newDesc ∉ opattrs sch)
    (hsingle : ∀ d ∈ opattrs sch, (∃ v, (attrFind new d).map (·.vals) = some [v]) ∧
      ∀ o, attrFind old d = some o → o.vals.length = 1)
    (hnewer : (attrFind old sch.entryCSN).map (·.vals) ≠ (attrFind new sch.entryCSN).map (·.vals))
    (hs : ∀ d, Shape sch.toDiffSchema old new d (modsOf mods d)) (hrun : applyMods sch.toModSchema old mods = .ok attrs)
    (hsame : ∀ d, SameValues attrs new d ∨ attrFind new d = none ∧ modsOf mods d = []) {o : Attr δ ν} (hfind : attrFind old dni.oldDesc = some o)
    (hbn : attrFind new dni.newDesc ≠ none)
    {modlist : List (Modification δ ν)} (hframe : ∀ {d}, d ≠ dni.oldDesc → d ≠ dni.newDesc → modsOf modlist d = [])
    (hnamed : (∃ mods₂, Dropped modlist dni mods mods₂ ∧ ∀ d, d = dni.oldDesc ∨ d = dni.newDesc →
        CellRight sch.toModSchema old new d (modsOf modlist d ++ modsOf mods₂ d)) ↔
      (attrFind new dni.oldDesc = none → modsOf mods dni.oldDesc ≠ [] ∨ (valuesOf old dni.oldDesc).length = 1) ∧
        OldValue dni new mods a b ∧ NewValue dni old mods a b bmr) :
    (∃ mods₂, Dropped modlist dni mods mods₂ ∧ (pullOps (opattrs sch) mods₂).1 ≠ [] ∧
        ∀ d, CellRight sch.toModSchema old new d (modsOf (sentMods sch l modlist mods₂) d)) ↔
      RenameMet sch false l dni old new mods a b bmr := by
  have hnames : ∀ d, d = dni.oldDesc ∨ d = dni.newDesc → d ∉ opattrs sch := by
    rintro d (rfl | rfl)
    · exact hau
    · exact hbu
  have hother : ∀ d ∈ opattrs sch, d ≠ dni.oldDesc ∧ d ≠ dni.newDesc := fun d hd =>
    ⟨fun h => hnames d (.inl h) hd, fun h => hnames d (.inr h) hd⟩
  have hlist : ∀ d ∈ opattrs sch, modsOf modlist d = [] := fun d hd => hframe (hother d hd).1 (hother d hd).2
  have hcsn : sch.entryCSN ∈ opattrs sch := by simp [opattrs]
  have hname : sch.modifiersName ∈ opattrs sch := by simp [opattrs]
  have htime : sch.modifyTimestamp ∈ opattrs sch := by simp [opattrs]
  -- what becomes of an attribute that neither RDN names
  have hleft : ∀ {mods₂ d}, Dropped modlist dni mods mods₂ → d ∉ opattrs sch → d ≠ dni.oldDesc → d ≠ dni.newDesc →
      modsOf (sentMods sch l modlist mods₂) d = modsOf mods d := by
    intro mods₂ d hdrop hd hda hdb
    rw [requests_other hnd hd, hframe hda hdb, List.nil_append, hdrop.frame hda hdb]
  have hop : ∀ {mods₂ d}, Dropped modlist dni mods mods₂ → d ∈ opattrs sch → modsOf mods₂ d = modsOf mods d :=
    fun hdrop hd => hdrop.frame (hother _ hd).1 (hother _ hd).2
  constructor
  · rintro ⟨mods₂, hdrop, -, hcells⟩
    obtain ⟨hgone, hoa, hob⟩ := hnamed.mp ⟨mods₂, hdrop, fun d hd => requests_other (l := l) hnd (hnames d hd) ▸ hcells d⟩
    refine ⟨rfl, fun o ho hn => ?_, hoa, hob, fun l' hl' hnil => ?_, fun l' hl' hnil => ?_⟩
    · have hfind := attrFind_of_mem hO.nodup ho
      by_cases hda : o.desc = dni.oldDesc
      · rw [hda] at hn hfind ⊢
        exact (hgone hn).imp_right fun hone => ⟨rfl, valuesOf_find hfind ▸ hone⟩
      · have hdb : o.desc ≠ dni.newDesc := fun heq => hbn (heq ▸ hn)
        have hd : o.desc ∉ opattrs sch := fun hd => by
          obtain ⟨⟨v, hv⟩, -⟩ := hsingle _ hd
          rw [hn] at hv
          cases hv
        have hright := hcells o.desc
        rw [hleft hdrop hd hda hdb] at hright
        exact .inl ((other_right_iff hO hs hrun (hsame o.desc)).mp hright o hfind hn)
    · obtain ⟨⟨w, hw⟩, hone⟩ := hsingle _ hname
      have hs₂ := hop hdrop hname ▸ hs sch.modifiersName
      exact (opattr_right_iff hnd hname (hlist _ hname) (opattrMod_name hnd l) hs₂ hw hone).mp (hcells _) l' hl'
        ((hop hdrop hname).trans hnil)
    · obtain ⟨⟨w, hw⟩, hone⟩ := hsingle _ htime
      have hs₂ := hop hdrop htime ▸ hs sch.modifyTimestamp
      exact (opattr_right_iff hnd htime (hlist _ htime) (opattrMod_timestamp hnd l) hs₂ hw hone).mp (hcells _) l' hl'
        ((hop hdrop htime).trans hnil)
  · intro hm
    obtain ⟨mods₂, hdrop, hright⟩ := hnamed.mpr ⟨fun hn => by
      have ho := attrFind_some hfind
      rw [valuesOf_find hfind, ← ho.2]
      exact (hm.gone o ho.1 (ho.2 ▸ hn)).imp_right fun h => h.2, hm.oldValue, hm.newValue⟩
    obtain ⟨⟨w, hw⟩, hone⟩ := hsingle _ hcsn
    obtain ⟨n, hnd', hvals, hms⟩ := (single_shape (hs sch.entryCSN) hw hone).resolve_left fun h => hnewer (h.2.trans hw.symm)
    have hms₂ := (hop hdrop hcsn).trans hms
    refine ⟨mods₂, hdrop, fun hnil => ?_, fun d => ?_⟩
    · have hpull := (pullOps_self hcsn hnd (by rw [hms₂]; rfl)).1
      rw [hnil, hms₂] at hpull
      cases hpull
    · by_cases hd : d ∈ opattrs sch
      · have hs₂ := hop hdrop hd ▸ hs d
        obtain ⟨⟨v, hv⟩, hone'⟩ := hsingle _ hd
        have hcase : d = sch.entryCSN ∨ d = sch.modifiersName ∨ d = sch.modifyTimestamp := by simpa [opattrs] using hd
        rcases hcase with rfl | rfl | rfl
        · exact opattr_right hnd hd (hlist _ hd) hnd' (hvals ▸ hw) hms₂
        · exact (opattr_right_iff hnd hd (hlist _ hd) (opattrMod_name hnd l) hs₂ hv hone').mpr fun l' hl' hnil =>
            hm.name l' hl' ((hop hdrop hd).symm.trans hnil)
        · exact (opattr_right_iff hnd hd (hlist _ hd) (opattrMod_timestamp hnd l) hs₂ hv hone').mpr fun l' hl' hnil =>
            hm.timestamp l' hl' ((hop hdrop hd).symm.trans hnil)
      · by_cases hdn : d = dni.oldDesc ∨ d = dni.newDesc
        · rw [requests_other hnd hd]
          exact hright d hdn
        · obtain ⟨hda, hdb⟩ := not_or.mp hdn
          rw [hleft hdrop hd hda hdb]
          refine (other_right_iff hO hs hrun (hsame d)).mpr fun o ho hn => ?_
          obtain ⟨hmem, rfl⟩ := attrFind_some ho
          exact (hm.gone o hmem hn).resolve_right fun h => hda h.1

end All

section Entry

variable [DecidableEq ρ] [DecidableEq π] {sch : RenameSchema δ ν} {rd : RdnReader ρ δ ν} {old new : NamedEntry ρ π δ ν}
  {ad bd : δ} {a b : ν}
  {amr bmr : EqualityRule ν}

theorem replaced_iff_met {isCtx : Bool} {l : Option (OpAttrs ν)} {mods : List (Modification δ ν)} {attrs : List (Attr δ ν)}
    (h : Renaming sch rd old new ad bd a b amr bmr) (hmods : dnMods sch isCtx old new = some mods)
    (hrun : applyMods sch.toModSchema old.attrs mods = .ok attrs)
    (hshape : ∀ d, Shape sch.toDiffSchema old.attrs new.attrs d (modsOf mods d) ∧
      (¬ (isCtx = true ∧ d = sch.contextCSN) → SameValues attrs new.attrs d ∨ attrFind new.attrs d = none ∧ modsOf mods d = [])) :
    Replaced sch rd isCtx l old new ↔ RenameMet sch isCtx l (dnInfo sch rd old new) old.attrs new.attrs mods a b bmr := by
  have had : (dnInfo sch rd old new).oldDesc = ad := h.source.desc
  have hbd : (dnInfo sch rd old new).newDesc = bd := h.target.desc
  have hra : sch.equality (dnInfo sch rd old new).oldDesc = some amr := had ▸ h.source.rule
  have hrb : sch.equality (dnInfo sch rd old new).newDesc = some bmr := hbd ▸ h.target.rule
  have ha : a ∈ valuesOf old.attrs (dnInfo sch rd old new).oldDesc := had ▸ h.source.value
  have hb : b ∈ valuesOf new.attrs (dnInfo sch rd old new).newDesc := hbd ▸ h.target.value
  have hst : ∀ d, d = (dnInfo sch rd old new).oldDesc ∨ d = (dnInfo sch rd old new).newDesc → Stored sch.toModSchema old.attrs d := by
    rintro d (rfl | rfl)
    · exact h.stored _ (had ▸ h.user.1)
    · exact h.stored _ (hbd ▸ h.user.2)
  have hna := (holds_find hra h.oldOk (hst _ (.inl rfl))).2.norm a ha
  obtain ⟨o, ho⟩ := find_of_value ha
  obtain ⟨n, hn⟩ := find_of_value hb
  have hvals : (attrFind new.attrs (dnInfo sch rd old new).newDesc).map (·.vals) = some n.vals := by
    rw [hn]
    rfl
  have hnb := (normal_new hrb h.newOk hvals).1.norm b (valuesOf_find hn ▸ hb)
  have hlist : slapModrdn2mods sch.toModSchema (rd.bv2rdn new.rdn) (rd.bv2rdn old.rdn) (dnInfo sch rd old new).delOldRdn =
      .ok (rdnModlist (dnInfo sch rd old new) amr bmr a b) := by
    rw [h.target.pair, h.source.pair, ← had, ← hbd]
    exact slapModrdn2mods_ok hra hrb hna hnb
  have hcount : (dnInfo sch rd old new).oldNcount = (valuesOf old.attrs (dnInfo sch rd old new).oldDesc).length := by
    unfold dnInfo valuesOf
    dsimp only
    cases attrFind old.attrs (rd.desc old.nrdn) <;> rfl
  have hdel : attrFind new.attrs (dnInfo sch rd old new).oldDesc = none → (dnInfo sch rd old new).delOldRdn = true := by
    unfold dnInfo
    dsimp only
    intro hnone
    rw [hnone]
  have hnamed := named_right_iff hra hrb h.source.symm h.target.symm h.oldOk h.newOk hst
      (fun d => (hshape d).1) ha hb hcount hdel
  rw [replaced_iff_cells hmods h.changed h.oldOk.nodup hlist]
  cases isCtx with
  | true => exact iff_of_false (fun h => by cases h.1) fun h => by cases h.notSuffix
  | false =>
    rw [and_iff_right rfl]
    exact requests_right_iff h.oldOk h.opattrs (had ▸ h.user.1) (hbd ▸ h.user.2) h.single h.newer (fun d => (hshape d).1) hrun
      (fun d => (hshape d).2 fun hctx => by cases hctx.1) ho (by rw [hn]; exact Option.some_ne_none n) modsOf_rdnModlist hnamed

end Entry

def plainRename : RenameSchema String String := { plainSchema with entryCSN := "entryCSN" }

def pairReader : RdnReader (String × String) String String := ⟨fun r => [r], (·.1), (·.2)⟩

def plainEntry (rdn : String × String) (csn : String) (attrs : List (String × List String)) :
    NamedEntry (String × String) String String String where
  rdn := rdn
  nrdn := rdn
  pdn := "o=p"
  attrs := (attrs ++ [("entryCSN", [csn]), ("modifiersName", ["cn=m"]), ("modifyTimestamp", [csn])]).map fun a =>
      attrNew a.1 a.2 none

/-- An entry `cn=a`, and what it becomes as `uid=y`. -/
def plainOld : NamedEntry (String × String) String String String := plainEntry ("cn", "a") "1" [("cn", ["a"]), ("uid", ["x"])]

def plainNew (uids : List String) : NamedEntry (String × String) String String String :=
  plainEntry ("uid", "y") "2" [("cn", ["a"]), ("uid", uids)]

theorem plain_ok {attrs : List (String × List String)} (h : (attrs.map (·.1)).Nodup) (hv : ∀ a ∈ attrs, a.2 ≠ [] ∧ a.2.Nodup) :
    EntryOk plainRename.toModSchema (attrs.map fun a => attrNew a.1 a.2 none) := by
  refine ⟨by simpa [attrNew, Function.comp_def] using h, ?_⟩
  rintro _ hmem
  obtain ⟨a, ha, rfl⟩ := List.mem_map.mp hmem
  have hdistinct : octetStringMatch.Distinct a.2 := (hv a ha).2.imp fun hne =>
    ⟨fun heq : compare _ _ = _ => hne (Std.LawfulEqCmp.eq_of_compare heq),
      fun heq : compare _ _ = _ => hne (Std.LawfulEqCmp.eq_of_compare heq).symm⟩
  refine ⟨(hv a ha).1, rfl, ?_, ?_⟩
  · intro mr hmr
    obtain rfl := Option.some.inj hmr
    rfl
  · intro mr hmr
    obtain rfl := Option.some.inj hmr
    exact hdistinct

theorem plain_renaming {uids : List String} (hn : uids.Nodup) (hy : "y" ∈ uids) :
    Renaming plainRename pairReader plainOld (plainNew uids) "cn" "uid" "a" "y" octetStringMatch octetStringMatch := by
  have hsymm : ∀ v w, octetStringMatch.cmp v w = .eq → octetStringMatch.cmp w v = .eq := fun v w h =>
    show compare w v = .eq from Std.OrientedCmp.eq_symm (show compare v w = .eq from h)
  have hne : uids ≠ [] := ne_nil_of_mem hy
  exact {
    changed := rfl
    oldOk := plain_ok (by decide) (by decide)
    newOk := plain_ok (by simp) (by simp [hne, hn])
    fresh := by simp [plainNew, plainEntry, attrNew]
    source := ⟨rfl, rfl, rfl, hsymm, by decide⟩
    target := ⟨rfl, rfl, rfl, hsymm, hy⟩
    stored := by
      rintro d - o mr ho hmr
      obtain ⟨a, -, rfl⟩ := List.mem_map.mp (attrFind_some ho).1
      obtain rfl := Option.some.inj hmr
      rfl
    opattrs := by decide
    user := by decide
    single := by
      have hold : ∀ d ∈ opattrs plainRename, ∀ o, attrFind plainOld.attrs d = some o → o.vals.length = 1 := by decide
      refine fun d hd => ⟨?_, hold d hd⟩
      have hcase : d = "entryCSN" ∨ d = "modifiersName" ∨ d = "modifyTimestamp" := by
        simpa [opattrs, plainRename, plainSchema] using hd
      rcases hcase with rfl | rfl | rfl
      · exact ⟨"2", rfl⟩
      · exact ⟨"cn=m", rfl⟩
      · exact ⟨"2", rfl⟩
    newer := by simp [plainOld, plainNew, plainEntry, plainRename, attrFind, attrNew]
  }

end Sync
end ReOpenLDAP
