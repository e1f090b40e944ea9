import ReOpenLDAP.Sync.EntryKept
import ReOpenLDAP.Sync.RenameRight

/-!
# Sync.RenameKept

What `syncrepl_entry` makes of a local entry is an entry again.
-/

namespace ReOpenLDAP
namespace Sync

open Slapd List

variable {ρ π δ ν : Type} [DecidableEq δ] [DecidableEq ν]

section Diff

variable {sch : DiffSchema δ ν} {loose : List δ} {isCtx : Bool} {old new : List (Attr δ ν)} {s s' : DiffState δ ν}
  {a : Attr δ ν} {d : δ} {mods : List (Modification δ ν)} {mr : EqualityRule ν} {vs : List ν}

omit [DecidableEq δ] [DecidableEq ν] in
theorem AttrKept.plain {sch : ModSchema δ ν} (h : AttrKept sch loose a) : AttrKept sch loose (attrNew a.desc a.vals a.nvals) :=
  ⟨⟨h.ok.vals, h.ok.length, h.ok.norm, h.ok.distinct⟩, h.stored⟩

omit [DecidableEq δ] [DecidableEq ν] in
theorem replaceMod_kept {sch : ModSchema δ ν} (h : AttrKept sch loose a) : ModKept sch loose (replaceMod a) :=
  .inr ⟨.inr (.inr rfl), a.vals, rfl, h.plain⟩

omit [DecidableEq δ] [DecidableEq ν] in
theorem attrNew_kept {sch : ModSchema δ ν} (hr : sch.equality d = some mr) (hv : Normal mr vs) (hne : vs ≠ []) :
    AttrKept sch loose (attrNew d vs (stored mr vs)) := by
  have hnorms : (attrNew d vs (stored mr vs)).norms = vs.map (nf mr) := getD_stored mr vs
  refine ⟨attrOk_of_normal hne (norms_length_map hnorms) fun mr' hr' => ?_, fun _ mr' hr' => ?_⟩
  · obtain rfl := Option.some.inj (hr.symm.trans hr')
    exact ⟨hv, hnorms⟩
  · obtain rfl := Option.some.inj (hr.symm.trans hr')
    exact Option.isSome_map

omit [DecidableEq δ] [DecidableEq ν] in
theorem valuesMod_kept {sch : ModSchema δ ν} {op : ModOp} (hop : op = .add ∨ op = .softadd) (hr : sch.equality d = some mr)
    (hv : Normal mr vs) (hne : vs ≠ []) : ModKept sch loose (valuesMod op d mr vs) :=
  .inr ⟨hop.imp_right .inl, vs, rfl, attrNew_kept hr hv hne⟩

/-- The attributes ahead are those of the new entry, up to the mark, and nothing else replaces. -/
structure Replaces (new : List (Attr δ ν)) (s : DiffState δ ν) : Prop where
  ahead : ∀ a ∈ s.new, replaceMod a ∈ new.map replaceMod
  passed : ∀ mod ∈ s.mods, mod.op = .replace → mod ∈ new.map replaceMod

theorem Replaces.round {o n : Attr δ ν} {os ns : List (Attr δ ν)} {mods ml : List (Modification δ ν)}
    (h : Replaces new ⟨o :: os, n :: ns, mods, ml⟩) (hround : Round sch isCtx o os n ns mods s') : Replaces new s' := by
  have hn := h.ahead n mem_cons_self
  have hns : ∀ a ∈ ns, replaceMod a ∈ new.map replaceMod := fun a ha => h.ahead a (mem_cons_of_mem n ha)
  have happend : ∀ {mods'}, (∀ mod ∈ mods', mod.op = .replace → mod ∈ new.map replaceMod) →
      ∀ mod ∈ mods ++ mods', mod.op = .replace → mod ∈ new.map replaceMod := fun h' mod hmod =>
    (List.mem_append.mp hmod).elim (h.passed mod) (h' mod)
  cases hround with
  | take => exact ⟨hns, happend (by simpa using fun _ => hn)⟩
  | pass => exact ⟨h.ahead, h.passed⟩
  | mark =>
    refine ⟨fun a ha => ?_, h.passed⟩
    rcases mem_attrSet_seen ha with ha | ⟨b, hb, -, rfl⟩
    · exact h.ahead a ha
    · exact h.ahead b hb
  | delete => exact ⟨h.ahead, happend (by simp)⟩
  | replace => exact ⟨hns, happend (by simpa using fun _ => hn)⟩
  | compare =>
    refine ⟨hns, happend fun mod hmod hop => ?_⟩
    unfold delMods addMods at hmod
    rcases List.mem_append.mp hmod with hmod | hmod <;> split at hmod <;> simp at hmod <;> simp [hmod] at hop

theorem diff_replaces (hO : EntryOk sch.toModSchema old) (hN : EntryOk sch.toModSchema new) (hfresh : ∀ a ∈ new, a.ixadd = false)
    (h : syncreplDiffEntry sch isCtx old new (new.map replaceMod) = some mods) :
    ∀ mod ∈ mods, mod.op = .replace → mod ∈ new.map replaceMod := by
  obtain ⟨s, attrs, hloop, hinv, -⟩ := diffLoop_inv hO (old.length + new.length) le_rfl
    (@diffInv_start _ _ _ _ sch isCtx _ _ hO hN hfresh)
  have hs : Replaces new s := diffLoop_rule hO (fun _ hs hround => hs.round hround) _ (diffInv_start hO hN hfresh)
    (s := ⟨old, new, [], new.map replaceMod⟩) ⟨fun a ha => List.mem_map_of_mem ha, by simp⟩ hloop
  unfold syncreplDiffEntry at h
  rw [hloop, Option.map_some] at h
  obtain rfl := Option.some.inj h
  intro mod hmod hop
  rcases List.mem_append.mp hmod with hmod | hmod
  · exact hs.passed mod hmod hop
  · rw [hinv.ml] at hmod
    obtain ⟨n, hn, rfl⟩ := List.mem_map.mp hmod
    exact hs.ahead n hn

theorem diff_kept (hO : EntryKept sch.toModSchema loose old) (hN : EntryKept sch.toModSchema loose new)
    (hfresh : ∀ a ∈ new, a.ixadd = false)
    (hsingle : ∀ d ∈ loose, (∃ v, (attrFind new d).map (·.vals) = some [v]) ∧ ∀ o, attrFind old d = some o → o.vals.length = 1)
    (h : syncreplDiffEntry sch isCtx old new (new.map replaceMod) = some mods) : ∀ mod ∈ mods, ModKept sch.toModSchema loose mod := by
  obtain ⟨mods', attrs, hmods, -, hshape⟩ := @diff_shape _ _ _ _ sch _ _ isCtx hO.ok hN.ok hfresh
  obtain rfl := Option.some.inj (hmods.symm.trans h)
  have hreplace : ∀ mod ∈ mods', mod.op = .replace → ModKept sch.toModSchema loose mod := by
    intro mod hmod hop
    obtain ⟨n, hn, rfl⟩ := List.mem_map.mp (diff_replaces hO.ok hN.ok hfresh hmods mod hmod hop)
    exact replaceMod_kept (hN.attr n hn)
  intro mod hmod
  have hin : mod ∈ modsOf mods' mod.desc := List.mem_filter.mpr ⟨hmod, decide_eq_true rfl⟩
  have hs := (hshape mod.desc).1
  by_cases hd : mod.desc ∈ loose
  · obtain ⟨⟨w, hw⟩, hone⟩ := hsingle mod.desc hd
    rcases single_shape hs hw hone with ⟨hnil, -⟩ | ⟨n, -, -, hms⟩
    · rw [hnil] at hin
      cases hin
    · rw [hms] at hin
      exact hreplace mod hmod (List.mem_singleton.mp hin ▸ rfl)
  · generalize hms : modsOf mods' mod.desc = ms at hs hin
    cases hr : sch.equality mod.desc with
    | some mr =>
      cases valueShape_of_shape hr hO.ok (hO.stored hd) hs with
      | left => cases hin
      | delete => exact .inl (List.mem_singleton.mp hin ▸ rfl)
      | replace => exact hreplace mod hmod (List.mem_singleton.mp hin ▸ rfl)
      | @compare o news ho hn hlive =>
        have hnormal := (normal_new hr hN.ok hn).1
        unfold valuesOpt at hin
        rcases List.mem_append.mp hin with hin | hin <;> split at hin
        · cases hin
        · exact .inl (List.mem_singleton.mp hin ▸ rfl)
        · cases hin
        · rw [List.mem_singleton.mp hin]
          refine valuesMod_kept (.inl rfl) hr ?_ ‹_›
          exact hnormal.of_subset (fun v hv => mem_of_mem_filter hv) (hnormal.nodup.filter _)
    | none =>
      cases hs with
      | left => cases hin
      | delete => exact .inl (List.mem_singleton.mp hin ▸ rfl)
      | replace => exact hreplace mod hmod (List.mem_singleton.mp hin ▸ rfl)
      | compare _ _ _ _ _ hrule =>
        obtain ⟨hdels, hadds⟩ := hrule hr
        simp [delMods, addMods, hdels, hadds] at hin

end Diff

section Rename

variable {sch : RenameSchema δ ν} {loose : List δ} {dni : DnInfo π δ} {modlist mods mods' : List (Modification δ ν)}
  {mod : Modification δ ν} {op : ModOp} {val : ν}

omit [DecidableEq δ] [DecidableEq ν] in
theorem normal_single {mr : EqualityRule ν} {v : ν} (h : mr.norm v = some (nf mr v)) : Normal mr [v] :=
  ⟨by simpa using h, pairwise_singleton _ _⟩

omit [DecidableEq δ] [DecidableEq ν] in
theorem rdnMod_kept {sch : ModSchema δ ν} {ava : δ × ν} (hop : op = .delete ∨ op = .softadd) (h : rdnMod sch op ava = .ok mod) :
    ModKept sch loose mod := by
  obtain ⟨d, v⟩ := ava
  cases hr : sch.equality d with
  | none => simp [rdnMod, hr] at h
  | some mr =>
    cases hn : mr.norm v with
    | none =>
      unfold EqualityRule.norm at hn
      cases hf : mr.normalize with
      | none => simp [hf] at hn
      | some f => simp_all [rdnMod]
    | some n =>
      have hnf : mr.norm v = some (nf mr v) := by rw [nf, hn, Option.getD_some]
      obtain rfl := Except.ok.inj ((rdnMod_ok op hr hnf).symm.trans h)
      rcases hop with rfl | rfl
      · exact .inl rfl
      · exact valuesMod_kept (.inr rfl) hr (normal_single hnf) (cons_ne_nil v [])

omit [DecidableEq δ] [DecidableEq ν] in
theorem mapM_forall {α β ε : Type} {f : α → Except ε β} {P : β → Prop} (hf : ∀ x y, f x = .ok y → P y) {xs : List α} {ys : List β}
    (h : xs.mapM f = .ok ys) : ∀ y ∈ ys, P y := by
  induction xs generalizing ys with
  | nil =>
    obtain rfl := Except.ok.inj h
    simp
  | cons x xs ih =>
    rw [mapM_cons] at h
    cases hx : f x with
    | error e => simp [hx, bind, Except.bind] at h
    | ok y =>
      cases hxs : xs.mapM f with
      | error e => simp [hx, hxs, bind, Except.bind] at h
      | ok zs =>
        obtain rfl : y :: zs = ys := by simpa [hx, hxs, bind, Except.bind, pure, Except.pure] using h
        intro z hz
        rcases List.mem_cons.mp hz with rfl | hz
        · exact hf x z hx
        · exact ih hxs z hz

omit [DecidableEq δ] [DecidableEq ν] in
theorem slapModrdn2mods_kept {sch : ModSchema δ ν} {newRdn oldRdn : List (δ × ν)} {del : Bool}
    (h : slapModrdn2mods sch newRdn oldRdn del = .ok modlist) : ∀ mod ∈ modlist, ModKept sch loose mod := by
  unfold slapModrdn2mods at h
  cases hadds : newRdn.mapM (rdnMod sch .softadd) with
  | error rc => simp [hadds, bind, Except.bind] at h
  | ok adds =>
    have hkept := mapM_forall (P := ModKept sch loose) (fun _ _ => rdnMod_kept (.inr rfl)) hadds
    cases del with
    | false =>
      obtain rfl : adds.reverse = modlist := by simpa [hadds, bind, Except.bind, pure, Except.pure] using h
      exact fun mod hmod => hkept mod (List.mem_reverse.mp hmod)
    | true =>
      cases hdels : oldRdn.mapM (rdnMod sch .delete) with
      | error rc => simp [hadds, hdels, bind, Except.bind] at h
      | ok dels =>
        have hkept' := mapM_forall (P := ModKept sch loose) (fun _ _ => rdnMod_kept (.inl rfl)) hdels
        obtain rfl : dels.reverse ++ adds.reverse = modlist := by
          simpa [hadds, hdels, bind, Except.bind, pure, Except.pure] using h
        intro mod hmod
        rcases List.mem_append.mp hmod with hmod | hmod
        · exact hkept' mod (List.mem_reverse.mp hmod)
        · exact hkept mod (List.mem_reverse.mp hmod)

theorem swapRemove_length {α : Type} (i : Nat) (xs : List α) : (swapRemove i xs).length = xs.length - 1 := by
  unfold swapRemove
  cases hlast : xs.getLast? with
  | none =>
    obtain rfl := List.getLast?_eq_none_iff.mp hlast
    rfl
  | some z => simp

omit [DecidableEq δ] in
theorem dropValue_kept {sch : ModSchema δ ν} (hm : ModKept sch loose mod) (hnum : mod.op = .delete ∨ 1 < numvals mod) :
    ModKept sch loose (dropValue val mod) := by
  cases hfind : (mod.values.getD []).findIdx? (· = val) with
  | none =>
    have hsame : dropValue val mod = mod := by simp [dropValue, hfind]
    rw [hsame]
    exact hm
  | some i =>
    have hdrop : dropValue val mod = { mod with values := mod.values.map (swapRemove i), nvalues := mod.nvalues.map (swapRemove i) } := by
      simp [dropValue, hfind]
    rw [hdrop]
    rcases hm with hop | ⟨hop, vs, hvals, ha⟩
    · exact .inl hop
    refine .inr ⟨hop, swapRemove i vs, congrArg (Option.map (swapRemove i)) hvals, ?_⟩
    rw [hvals, Option.getD_some] at hfind
    have hlt : i < vs.length := (List.findIdx?_eq_some_iff_getElem.mp hfind).1
    have hperm := swapRemove_perm (List.getElem?_eq_getElem hlt)
    have hlen : 1 < vs.length := by
      rcases hnum with hdel | hnum
      · simp [hdel] at hop
      · simpa [numvals, hvals] using hnum
    have hnorms : (attrNew mod.desc (swapRemove i vs) (mod.nvalues.map (swapRemove i))).norms =
        swapRemove i (attrNew mod.desc vs mod.nvalues).norms := by
      unfold Attr.norms attrNew
      cases mod.nvalues <;> rfl
    refine ha.part rfl (fun v hv => hperm.subset (mem_cons_of_mem _ hv)) (fun hn => ?_) ?_ ?_ Option.isSome_map fun f hf => ?_
    · exact (List.nodup_cons.mp (hperm.nodup_iff.mpr hn)).2
    · intro hnil
      have hzero := (swapRemove_length i vs).symm.trans (congrArg List.length hnil)
      simp at hzero
      omega
    · rw [hnorms, swapRemove_length, ha.ok.length]
      exact (swapRemove_length i vs).symm
    · rw [hnorms, hf]
      exact (swapRemove_map f i vs).symm

theorem dropOld_kept {sch : ModSchema δ ν} {r : List (Modification δ ν) × Bool} (h : dropOld modlist dni mods = .ok r)
    (hm : ∀ mod ∈ mods, ModKept sch loose mod) : ∀ mod ∈ r.1, ModKept sch loose mod := by
  induction mods generalizing r with
  | nil =>
    obtain rfl := Except.ok.inj h
    simp
  | cons mod mods ih =>
    have hrest : ∀ mod' ∈ mods, ModKept sch loose mod' := fun mod' hmod' => hm mod' (mem_cons_of_mem mod hmod')
    have hmod := hm mod mem_cons_self
    have hnext : ∀ {r}, (dropOld modlist dni mods).map (fun r => (mod :: r.1, r.2)) = .ok r →
        ∀ mod' ∈ r.1, ModKept sch loose mod' := by
      intro r hr
      cases hres : dropOld modlist dni mods with
      | error rc =>
        rw [hres] at hr
        cases hr
      | ok r' =>
        rw [hres] at hr
        obtain rfl := Except.ok.inj hr
        exact List.forall_mem_cons.mpr ⟨hmod, ih hres hrest⟩
    unfold dropOld at h
    dsimp only at h
    split_ifs at h with hdesc hride hgone hop
    · exact hnext h
    · exact hnext h
    · obtain rfl := Except.ok.inj h
      exact hrest
    · exact hnext h
    · cases hval : rdnValue modlist dni.oldDesc .delete with
      | none =>
        rw [hval] at h
        cases h
      | some val =>
        rw [hval] at h
        obtain rfl := Except.ok.inj h
        have hdel : mod.op = .delete := not_not.mp (not_or.mp hop).1
        dsimp only
        split_ifs
        · exact hrest
        · exact List.forall_mem_cons.mpr ⟨dropValue_kept hmod (.inl hdel), hrest⟩

theorem dropNew_kept {sch : ModSchema δ ν} (h : dropNew modlist dni mods = .ok mods') (hm : ∀ mod ∈ mods, ModKept sch loose mod) :
    ∀ mod ∈ mods', ModKept sch loose mod := by
  induction mods generalizing mods' with
  | nil =>
    obtain rfl := Except.ok.inj h
    simp
  | cons mod mods ih =>
    have hrest : ∀ mod' ∈ mods, ModKept sch loose mod' := fun mod' hmod' => hm mod' (mem_cons_of_mem mod hmod')
    have hmod := hm mod mem_cons_self
    unfold dropNew at h
    split_ifs at h with hdesc hone hzero
    · cases hres : dropNew modlist dni mods with
      | error rc =>
        rw [hres] at h
        cases h
      | ok ms =>
        rw [hres] at h
        obtain rfl := Except.ok.inj h
        exact List.forall_mem_cons.mpr ⟨hmod, ih hres hrest⟩
    · obtain rfl := Except.ok.inj h
      exact hrest
    · obtain rfl := Except.ok.inj h
      exact hm
    · cases hval : rdnValue modlist dni.oldDesc .softadd with
      | none =>
        rw [hval] at h
        cases h
      | some val =>
        rw [hval] at h
        obtain rfl := Except.ok.inj h
        exact List.forall_mem_cons.mpr ⟨dropValue_kept hmod (.inr (by omega)), hrest⟩

omit [DecidableEq ν] in
theorem mem_pullOps {descs : List δ} (h : mod ∈ (pullOps descs mods).1 ∨ mod ∈ (pullOps descs mods).2) : mod ∈ mods := by
  induction descs generalizing mods with
  | nil => exact h.elim (fun h => by cases h) id
  | cons d descs ih =>
    unfold pullOps at h
    dsimp only at h
    rw [mem_append, or_assoc] at h
    rcases h with h | h
    · exact List.mem_of_find?_eq_some (Option.mem_toList.mp h)
    · exact mem_of_mem_eraseP (ih h)

end Rename

/-! ## The requests -/

section Requests

variable [DecidableEq ρ] [DecidableEq π] {sch : RenameSchema δ ν} {rd : RdnReader ρ δ ν} {dni : DnInfo π δ} {isCtx : Bool}
  {l : Option (OpAttrs ν)} {old new e e' : NamedEntry ρ π δ ν} {mods : List (Modification δ ν)}
  {r : List (Modification δ ν) × List (Modification δ ν)}

structure OpAttrsKept (sch : RenameSchema δ ν) (l : OpAttrs ν) : Prop where
  csn : ∀ csn, l.csn = some csn → AttrKept sch.toModSchema (opattrs sch) (attrNew sch.entryCSN [csn] none)
  name : AttrKept sch.toModSchema (opattrs sch) (attrNew sch.modifiersName [l.name] (some [l.nname]))
  timestamp : AttrKept sch.toModSchema (opattrs sch) (attrNew sch.modifyTimestamp [l.timestamp] none)

omit [DecidableEq ν] in
theorem slapModsOpattrs_kept (hl : ∀ l', l = some l' → OpAttrsKept sch l')
    (hm : ∀ mod ∈ mods, ModKept sch.toModSchema (opattrs sch) mod) :
    ∀ mod ∈ slapModsOpattrs sch l mods, ModKept sch.toModSchema (opattrs sch) mod := by
  cases l with
  | none => exact hm
  | some l =>
    have hk := hl l rfl
    intro mod hmod
    unfold slapModsOpattrs at hmod
    simp only [mem_append] at hmod
    rcases hmod with ((hmod | hmod) | hmod) | hmod
    · exact hm mod hmod
    · split at hmod
      · cases hmod
      · obtain ⟨csn, hcsn, rfl⟩ := List.mem_map.mp hmod
        exact replaceMod_kept (hk.csn csn (Option.mem_toList.mp hcsn))
    · split at hmod
      · cases hmod
      · rw [List.mem_singleton.mp hmod]
        exact replaceMod_kept hk.name
    · split at hmod
      · cases hmod
      · rw [List.mem_singleton.mp hmod]
        exact replaceMod_kept hk.timestamp

omit [DecidableEq ρ] [DecidableEq π] in
theorem syncreplRename_kept (h : syncreplRename sch rd dni mods old new = .ok r)
    (hm : ∀ mod ∈ mods, ModKept sch.toModSchema (opattrs sch) mod) :
    (∀ mod ∈ r.1, ModKept sch.toModSchema (opattrs sch) mod) ∧ ∀ mod ∈ r.2, ModKept sch.toModSchema (opattrs sch) mod := by
  cases hlist : slapModrdn2mods sch.toModSchema (rd.bv2rdn new.rdn) (rd.bv2rdn old.rdn) dni.delOldRdn with
  | error rc =>
    unfold syncreplRename at h
    rw [hlist] at h
    cases h
  | ok modlist =>
    have hmodlist : ∀ mod ∈ modlist, ModKept sch.toModSchema (opattrs sch) mod := slapModrdn2mods_kept hlist
    rw [syncreplRename_eq hlist] at h
    cases hold : dropOldOpt modlist dni mods with
    | error rc => simp [hold] at h
    | ok r₁ =>
      cases hnew : dropNewOpt modlist dni r₁.2 r₁.1 with
      | error rc => simp [hold, hnew] at h
      | ok mods₂ =>
        simp only [hold, hnew] at h
        split at h
        · cases h
        obtain rfl := Except.ok.inj h
        have hkept : ∀ mod ∈ mods₂, ModKept sch.toModSchema (opattrs sch) mod := by
          have hkept₁ : ∀ mod ∈ r₁.1, ModKept sch.toModSchema (opattrs sch) mod := by
            unfold dropOldOpt at hold
            split at hold
            · exact dropOld_kept hold hm
            · obtain rfl := Except.ok.inj hold
              exact hm
          unfold dropNewOpt at hnew
          split at hnew
          · obtain rfl := Except.ok.inj hnew
            exact hkept₁
          · exact dropNew_kept hnew hkept₁
        unfold requests
        dsimp only
        split
        · refine ⟨fun mod hmod => ?_, by simp⟩
          rcases List.mem_append.mp hmod with hmod | hmod
          · exact hmodlist mod hmod
          · exact hkept mod (mem_pullOps (.inl hmod))
        · refine ⟨hmodlist, fun mod hmod => ?_⟩
          rcases List.mem_append.mp hmod with hmod | hmod
          · exact hkept mod (mem_pullOps (.inr hmod))
          · exact hkept mod (mem_pullOps (.inl hmod))

variable (hsymm : ∀ d mr, sch.equality d = some mr → ∀ v w, mr.cmp v w = .eq → mr.cmp w v = .eq)

include hsymm

omit [DecidableEq ρ] [DecidableEq π] in
theorem mdbModify_kept (h : EntryKept sch.toModSchema (opattrs sch) e.attrs)
    (hm : ∀ mod ∈ mods, ModKept sch.toModSchema (opattrs sch) mod) (hrun : mdbModify sch e mods = .ok e') :
    EntryKept sch.toModSchema (opattrs sch) e'.attrs := by
  unfold mdbModify at hrun
  cases hmod : modifyInternal sch.toModSchema e.attrs mods with
  | error rc => simp [hmod] at hrun
  | ok attrs =>
    rw [hmod] at hrun
    obtain rfl := Except.ok.inj hrun
    exact modifyInternal_kept hsymm h hm hmod

theorem syncreplReplace_kept (hO : EntryKept sch.toModSchema (opattrs sch) old.attrs)
    (hN : EntryKept sch.toModSchema (opattrs sch) new.attrs) (hfresh : ∀ a ∈ new.attrs, a.ixadd = false)
    (hsingle : ∀ d ∈ opattrs sch, (∃ v, (attrFind new.attrs d).map (·.vals) = some [v]) ∧
      ∀ o, attrFind old.attrs d = some o → o.vals.length = 1)
    (hl : ∀ l', l = some l' → OpAttrsKept sch l') (hrun : syncreplReplace sch rd isCtx l old new = .ok e) :
    EntryKept sch.toModSchema (opattrs sch) e.attrs := by
  unfold syncreplReplace at hrun
  cases hmods : dnMods sch isCtx old new with
  | none => simp [hmods] at hrun
  | some mods =>
    have hm : ∀ mod ∈ mods, ModKept sch.toModSchema (opattrs sch) mod := diff_kept hO hN hfresh hsingle hmods
    rw [hmods] at hrun
    dsimp only at hrun
    by_cases hren : renamed old new = true
    · rw [if_pos hren] at hrun
      cases hreq : syncreplRename sch rd (dnInfo sch rd old new) mods old new with
      | error rc => simp [hreq, bind, Except.bind] at hrun
      | ok r =>
        obtain ⟨hm₁, hm₂⟩ := syncreplRename_kept hreq hm
        cases hone : mdbModrdn sch isCtx l old new.rdn new.nrdn (dnInfo sch rd old new).nnewSup r.1 with
        | error rc => simp [hreq, hone, bind, Except.bind] at hrun
        | ok e₁ =>
          have he₁ : EntryKept sch.toModSchema (opattrs sch) e₁.attrs := by
            unfold mdbModrdn at hone
            split at hone
            · cases hone
            · refine mdbModify_kept hsymm ?_ (slapModsOpattrs_kept hl hm₁) hone
              exact hO
          simp only [hreq, hone, bind, Except.bind, pure, Except.pure] at hrun
          split at hrun
          · obtain rfl := Except.ok.inj hrun
            exact he₁
          · exact mdbModify_kept hsymm he₁ hm₂ hrun
    · rw [if_neg hren] at hrun
      split at hrun
      · obtain rfl := Except.ok.inj hrun
        exact hO
      · exact mdbModify_kept hsymm hO hm hrun

end Requests

end Sync
end ReOpenLDAP
