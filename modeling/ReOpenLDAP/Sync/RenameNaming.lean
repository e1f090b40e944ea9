import ReOpenLDAP.Sync.RenameValues

/-!
# Sync.RenameNaming

The naming attributes under the two requests of a rename.

* `OldValue`, `NewValue`  — what must hold of the old RDN's value and of those that are added to the new naming attribute.
-/

namespace ReOpenLDAP
namespace Sync

open Slapd List

variable {ρ π δ ν : Type} [DecidableEq δ] [DecidableEq ν]

def valuesOf (attrs : List (Attr δ ν)) (d : δ) : List ν := ((attrFind attrs d).map (·.vals)).getD []

/-- The old RDN's value is gone in the new entry, or the attribute is replaced, or the RDN is the same. -/
def OldValue (dni : DnInfo π δ) (new : List (Attr δ ν)) (mods : List (Modification δ ν)) (a b : ν) : Prop :=
  dni.delOldRdn = true → a ∈ valuesOf new dni.oldDesc →
    (∃ mod ∈ modsOf mods dni.oldDesc, mod.op = .replace) ∨ dni.oldDesc = dni.newDesc ∧ a = b

/-- Values are added to the new naming attribute: a single one is the new RDN's, more come only with the same attribute, and the
new RDN's is none that the old entry has in other spelling. -/
def NewValue (dni : DnInfo π δ) (old : List (Attr δ ν)) (mods : List (Modification δ ν)) (a b : ν) (mr : EqualityRule ν) : Prop :=
  ∀ mod ∈ modsOf mods dni.newDesc, mod.op = .add → (numvals mod = 1 → mod.values = some [b]) ∧
    (numvals mod ≠ 1 → dni.oldDesc = dni.newDesc) ∧
    (b ∈ mod.values.getD [] → ∀ v ∈ valuesOf old dni.newDesc, Matches mr v b →
      dni.delOldRdn = true ∧ dni.oldDesc = dni.newDesc ∧ v = a)

section Named

variable {sch : RenameSchema δ ν} {mr : EqualityRule ν} {old new : List (Attr δ ν)} {dni : DnInfo π δ}
  {mods modlist : List (Modification δ ν)}
  {a b : ν} {oa : Option ν} {os ns adds : List ν}

omit [DecidableEq δ] [DecidableEq ν] in
theorem values_there_iff (hO : Normal mr os) (hb : b ∈ ns) :
    (∀ v ∈ ns, (v ∈ os ∧ oa ≠ some v ∨ some b = some v ∧ ∀ u ∈ os, oa ≠ some u → ¬ Matches mr u v) ∨ v ∈ adds) ↔
      (∀ v, oa = some v → v ∈ ns → v = b ∨ v ∈ adds) ∧ (∀ v ∈ ns, v ∉ os → v = b ∨ v ∈ adds) ∧
        (b ∉ os → b ∉ adds → ∀ u ∈ os, Matches mr u b → oa = some u) := by
  constructor
  · intro h
    refine ⟨fun v hv hmem => ?_, fun v hmem hout => ?_, fun hout hadd u hu hm => ?_⟩
    · rcases h v hmem with (⟨-, hne⟩ | ⟨hvb, -⟩) | hadd
      · exact absurd hv hne
      · exact .inl (Option.some.inj hvb).symm
      · exact .inr hadd
    · rcases h v hmem with (⟨hin, -⟩ | ⟨hvb, -⟩) | hadd
      · exact absurd hin hout
      · exact .inl (Option.some.inj hvb).symm
      · exact .inr hadd
    · rcases h b hb with (⟨hin, -⟩ | ⟨-, hno⟩) | hadd'
      · exact absurd hin hout
      · by_contra hne
        exact hno u hu hne hm
      · exact absurd hadd' hadd
  · rintro ⟨hold, hnew, hclash⟩ v hmem
    by_cases hadd : v ∈ adds
    · exact .inr hadd
    left
    by_cases hin : v ∈ os
    · by_cases hv : oa = some v
      · right
        obtain rfl := (hold v hv hmem).resolve_right hadd
        refine ⟨rfl, fun u hu hne hm => hne ?_⟩
        rw [hO.eq_of_matches hu hin hm]
        exact hv
      · exact .inl ⟨hin, hv⟩
    · right
      obtain rfl := (hnew v hmem hin).resolve_right hadd
      refine ⟨rfl, fun u hu hne hm => hne (hclash hin hadd u hu hm)⟩

omit [DecidableEq ν] in
theorem valuesOf_some {d : δ} {vs : List ν} (h : (attrFind new d).map (·.vals) = some vs) : valuesOf new d = vs := by
  rw [valuesOf, h, Option.getD_some]

omit [DecidableEq ν] in
theorem valuesOf_none {d : δ} (h : attrFind new d = none) : valuesOf new d = [] := by
  rw [valuesOf, h]
  rfl

omit [DecidableEq ν] in
theorem find_of_value {d : δ} {v : ν} (h : v ∈ valuesOf new d) : ∃ n, attrFind new d = some n := by
  cases hn : attrFind new d with
  | some n => exact ⟨n, rfl⟩
  | none => exact absurd (valuesOf_none hn ▸ h) not_mem_nil

omit [DecidableEq ν] in
theorem valuesOf_find {d : δ} {o : Attr δ ν} (h : attrFind old d = some o) : valuesOf old d = o.vals := by
  rw [valuesOf, h]
  rfl

omit [DecidableEq ν] in
theorem none_right {d : δ} {x : Option (Attr δ ν)} {vs : List ν} (h : Holds mr d x vs) (hn : attrFind new d = none) :
    Option.Rel List.Perm (x.map (·.vals)) ((attrFind new d).map (·.vals)) ↔ vs = [] := by
  rw [hn]
  cases x with
  | none => exact ⟨fun _ => h, fun _ => .none⟩
  | some o =>
    constructor
    · intro h
      cases h
    · intro hnil
      exact absurd hnil h.2.2.1

def dropOldOpt (modlist : List (Modification δ ν)) (dni : DnInfo π δ) (mods : List (Modification δ ν)) :
    Except RenameRc (List (Modification δ ν) × Bool) :=
  if dni.delOldRdn then dropOld modlist dni mods else pure (mods, false)

def oldOpt (dni : DnInfo π δ) (a : ν) : Option ν := if dni.delOldRdn then some a else none

variable {d : δ} {o : Attr δ ν} {ms : List (Modification δ ν)}

omit [DecidableEq δ] [DecidableEq ν] in
theorem oldOpt_some {v : ν} : oldOpt dni a = some v ↔ dni.delOldRdn = true ∧ v = a := by
  unfold oldOpt
  by_cases hdel : dni.delOldRdn = true <;> simp [hdel, eq_comm]

omit [DecidableEq δ] [DecidableEq ν] in
theorem nil_iff_single {vs : List ν} (hn : os.Nodup) (ha : a ∈ os) (hmem : ∀ v, v ∈ vs ↔ v ∈ os ∧ v ≠ a) :
    vs = [] ↔ os.length = 1 := by
  constructor
  · rintro rfl
    have hall : ∀ v ∈ os, v = a := fun v hv => by
      by_contra hne
      exact absurd ((hmem v).mpr ⟨hv, hne⟩) not_mem_nil
    rcases os with _ | ⟨u, _ | ⟨w, os⟩⟩
    · cases ha
    · rfl
    · have huw : u = w := (hall u (by simp)).trans (hall w (by simp)).symm
      simp [huw] at hn
  · intro hlen
    obtain ⟨u, rfl⟩ := List.length_eq_one_iff.mp hlen
    refine List.eq_nil_iff_forall_not_mem.mpr fun v hv => ?_
    obtain ⟨hvu, hva⟩ := (hmem v).mp hv
    exact hva ((List.mem_singleton.mp hvu).trans (List.mem_singleton.mp ha).symm)

omit [DecidableEq ν] in
theorem normal_new {sch : ModSchema δ ν} (hr : sch.equality d = some mr) (hN : EntryOk sch new)
    (hn : (attrFind new d).map (·.vals) = some ns) :
    Normal mr ns ∧ ns ≠ [] := by
  obtain ⟨n, hfind, rfl⟩ := Option.map_eq_some_iff.mp hn
  obtain ⟨hmem, rfl⟩ := attrFind_some hfind
  exact ⟨((hN.attr n hmem).normal hr).1, (hN.attr n hmem).vals⟩

omit [DecidableEq δ] [DecidableEq ν] in
theorem mem_compare {dels : List ν} {mod : Modification δ ν} (h : mod ∈ valuesOpt .delete d mr dels ++ valuesOpt .add d mr adds) :
    mod = valuesMod .delete d mr dels ∨ mod = valuesMod .add d mr adds ∧ adds ≠ [] := by
  unfold valuesOpt at h
  rcases List.mem_append.mp h with h | h <;> split_ifs at h with hnil
  · cases h
  · exact .inl (List.mem_singleton.mp h)
  · cases h
  · exact .inr ⟨List.mem_singleton.mp h, hnil⟩

theorem dropOldOpt_compare (adds : List ν) (hd : dni.oldDesc = d) (hno : Normal mr os) (hlive : ∃ v ∈ os, v ∈ ns)
    (hcount : dni.oldNcount = os.length)
    (hrdn : dni.delOldRdn = true → rdnValue modlist d .delete = some a) :
    ∃ dels, dropOldOpt modlist dni (valuesOpt .delete d mr (os.filter (· ∉ ns)) ++ valuesOpt .add d mr adds) =
        .ok (valuesOpt .delete d mr dels ++ valuesOpt .add d mr adds, false) ∧
      ∀ v, v ∈ dels ↔ (v ∈ os ∧ v ∉ ns) ∧ oldOpt dni a ≠ some v := by
  unfold dropOldOpt oldOpt
  by_cases hdel : dni.delOldRdn = true
  · have hmany : os.filter (· ∉ ns) ≠ [] → dni.oldNcount ≠ 1 := by
      intro hne hone
      rw [hcount] at hone
      obtain ⟨u, rfl⟩ := List.length_eq_one_iff.mp hone
      obtain ⟨v, hv, hin⟩ := hlive
      obtain rfl := List.mem_singleton.mp hv
      exact hne (by simp [hin])
    obtain ⟨dels, hdrop, -, hmem⟩ := @dropOld_compare _ _ _ _ _ mr d a modlist dni _ adds hd hmany (hrdn hdel)
      (hno.nodup.sublist filter_sublist)
    rw [if_pos hdel, if_pos hdel]
    refine ⟨dels, hdrop, fun v => ?_⟩
    rw [hmem, mem_filter, decide_eq_true_eq, ne_eq, ne_eq, Option.some.injEq, eq_comm (a := a)]
  · rw [if_neg hdel, if_neg hdel]
    exact ⟨_, rfl, fun v => by simp⟩

section Old

variable (hr : sch.equality d = some mr) (hsymm : ∀ v w, mr.cmp v w = .eq → mr.cmp w v = .eq) (ho : attrFind old d = some o)
  (hh : Holds mr d (some o) o.vals) (hno : Normal mr o.vals) (ha : a ∈ o.vals)

include hr hsymm ho hh hno ha

theorem old_gone (hn : attrFind new d = none) (hdel : dni.delOldRdn = true) :
    ∃ y vs, cellRun sch.toModSchema (attrFind old d) (rdnMods mr d (oldOpt dni a) none) = .ok y ∧ Holds mr d y vs ∧
      (vs = [] ↔ o.vals.length = 1) ∧
        (Option.Rel List.Perm (y.map (·.vals)) ((attrFind new d).map (·.vals)) ↔ o.vals.length = 1) := by
  have hoa : oldOpt dni a = some a := if_pos hdel
  obtain ⟨y, vs, hy, hy', -, hmem⟩ := cellRun_rdn (b := none) hr hsymm hh hno (a := some a) (by simpa using ha) (by simp)
  have hnil : vs = [] ↔ o.vals.length = 1 := nil_iff_single hno.nodup ha fun v => by simpa [eq_comm] using hmem v
  exact ⟨y, vs, by rw [ho, hoa]; exact hy, hy', hnil, (none_right hy' hn).trans hnil⟩

theorem old_right_iff (hN : EntryOk sch.toModSchema new) (hs : ValueShape mr old new d ms) (hms : modsOf mods d = ms)
    (hd : dni.oldDesc = d) (hne : dni.oldDesc ≠ dni.newDesc) (hcount : dni.oldNcount = o.vals.length)
    (hdel : attrFind new d = none → dni.delOldRdn = true) (hrdn : dni.delOldRdn = true → rdnValue modlist d .delete = some a) :
    ∃ ms', dropOldOpt modlist dni ms = .ok (ms', false) ∧
      (CellRight sch.toModSchema old new d (rdnMods mr d (oldOpt dni a) none ++ ms') ↔
        (attrFind new d = none → ms ≠ [] ∨ o.vals.length = 1) ∧ OldValue dni new mods a b) := by
  have hlack : attrFind new d = none → OldValue dni new mods a b := by
    intro hn _ hmem
    rw [hd, valuesOf_none hn] at hmem
    cases hmem
  cases hs with
  | left hn =>
    obtain ⟨y, vs, hy, -, -, hright⟩ := old_gone hr hsymm ho hh hno ha hn (hdel hn)
    refine ⟨[], ?_, ?_⟩
    · unfold dropOldOpt
      rw [if_pos (hdel hn)]
      rfl
    · rw [List.append_nil, cellRight_iff hy, hright]
      exact ⟨fun hlen => ⟨fun _ => .inr hlen, hlack hn⟩, fun h => (h.1 hn).resolve_left (not_not.mpr rfl)⟩
  | delete _ hn =>
    obtain ⟨y, vs, hy, hy', hnil, hright⟩ := old_gone hr hsymm ho hh hno ha hn (hdel hn)
    refine ⟨_, (if_pos (hdel hn)).trans (dropOld_deleteAll hd), ?_⟩
    refine iff_of_true ?_ ⟨fun _ => .inl (cons_ne_nil _ _), hlack hn⟩
    rw [hcount]
    by_cases hone : o.vals.length = 1
    · rw [if_pos hone, List.append_nil, cellRight_iff hy]
      exact hright.mpr hone
    · rw [if_neg hone]
      cases y with
      | none => exact absurd (hnil.mp hy') hone
      | some y =>
        refine ⟨none, ?_, by rw [hn]; exact .none⟩
        rw [cellRun_append, hy]
        change cellRun sch.toModSchema (some y) [_] = .ok none
        rw [cellRun_cons, cell_deleteAll hy'.1]
        rfl
  | @replace n hnd hn =>
    have hdrop : dropOldOpt modlist dni [replaceMod n] = .ok ([replaceMod n], false) := by
      unfold dropOldOpt
      split_ifs
      · rw [dropOld_replaceMod (hd.trans hnd.symm), if_neg fun h => hne h.1]
      · rfl
    refine ⟨_, hdrop, iff_of_true ?_ ⟨fun hnone => ?_, fun _ _ => .inl ⟨replaceMod n, ?_, rfl⟩⟩⟩
    · obtain ⟨y, vs, hy, hy', -, -⟩ := cellRun_rdn (b := none) hr hsymm hh hno (a := oldOpt dni a)
        (fun v hv => (oldOpt_some.mp hv).2 ▸ ha) (by simp)
      refine replace_right hn hnd (by rw [ho]; exact hy) ?_
      rintro o' rfl
      exact hy'.1
    · rw [hnone] at hn
      cases hn
    · rw [hd, hms]
      exact mem_singleton_self _
  | @compare o' news ho' hn hlive =>
    obtain rfl := Option.some.inj (ho.symm.trans ho')
    obtain ⟨hnn, hnne⟩ := normal_new hr hN hn
    obtain ⟨dels, hdrop, hdels⟩ := dropOldOpt_compare (news.filter (· ∉ o.vals)) hd hno hlive hcount hrdn
    refine ⟨_, hdrop, ?_⟩
    rw [compare_right_iff hr hsymm ho hh hno hn hnn hnne (fun v hv => (oldOpt_some.mp hv).2 ▸ ha) (by simp) hdels
      (fun v hv => by simpa using hv) (hnn.nodup.sublist filter_sublist)]
    constructor
    · intro hall
      refine ⟨fun hnone => absurd (hnone ▸ hn) (by simp), fun hdel hmem => ?_⟩
      rw [hd, valuesOf_some hn] at hmem
      rcases hall a hmem with (⟨-, hout⟩ | ⟨hnone, -⟩) | hadd
      · exact absurd (if_pos hdel) hout
      · cases hnone
      · exact absurd ha (by simpa using (List.mem_filter.mp hadd).2)
    · rintro ⟨-, hold⟩ v hv
      by_cases hin : v ∈ o.vals
      · refine .inl (.inl ⟨hin, fun hoa => ?_⟩)
        obtain ⟨hdel, rfl⟩ := oldOpt_some.mp hoa
        rcases hold hdel (by rw [hd, valuesOf_some hn]; exact hv) with ⟨mod, hmod, hop⟩ | ⟨hsame, -⟩
        · rw [hd, hms] at hmod
          rcases mem_compare hmod with rfl | ⟨rfl, -⟩ <;> cases hop
        · exact hne hsame
      · exact .inr (List.mem_filter.mpr ⟨hv, decide_eq_true hin⟩)

end Old

def dropNewOpt (modlist : List (Modification δ ν)) (dni : DnInfo π δ) (got : Bool) (mods : List (Modification δ ν)) :
    Except RenameRc (List (Modification δ ν)) :=
  if got then pure mods else dropNew modlist dni mods

omit [DecidableEq ν] in
theorem newValue_compare {dels : List ν} (hd : dni.newDesc = d)
    (hms : modsOf mods d = valuesOpt .delete d mr dels ++ valuesOpt .add d mr adds)
    (ho : valuesOf old d = os) :
    NewValue dni old mods a b mr ↔ (adds ≠ [] → (adds.length = 1 → adds = [b]) ∧ (adds.length ≠ 1 → dni.oldDesc = dni.newDesc) ∧
      (b ∈ adds → ∀ v ∈ os, Matches mr v b → dni.delOldRdn = true ∧ dni.oldDesc = dni.newDesc ∧ v = a)) := by
  unfold NewValue
  rw [hd, hms, ho]
  constructor
  · intro h hne
    have hmem : valuesMod .add d mr adds ∈ valuesOpt .delete d mr dels ++ valuesOpt .add d mr adds := by
      refine mem_append_right _ ?_
      rw [valuesOpt, if_neg hne]
      exact mem_singleton_self _
    obtain ⟨hone, hmany, hclash⟩ := h _ hmem rfl
    exact ⟨fun hlen => Option.some.inj (hone hlen), hmany, hclash⟩
  · intro h mod hmod hop
    rcases mem_compare hmod with rfl | ⟨rfl, hne⟩
    · cases hop
    · obtain ⟨hone, hmany, hclash⟩ := h hne
      exact ⟨fun hlen => congrArg some (hone hlen), hmany, hclash⟩

omit [DecidableEq ν] in
theorem holds_find (hr : sch.equality d = some mr) (hO : EntryOk sch.toModSchema old) (hst : Stored sch.toModSchema old d) :
    Holds mr d (attrFind old d) (valuesOf old d) ∧ Normal mr (valuesOf old d) := by
  cases ho : attrFind old d with
  | none =>
    rw [valuesOf_none ho]
    exact ⟨rfl, by simp, List.Pairwise.nil⟩
  | some o =>
    rw [valuesOf_find ho]
    exact holds_old hr hO hst ho

section New

variable (hr : sch.equality d = some mr) (hsymm : ∀ v w, mr.cmp v w = .eq → mr.cmp w v = .eq) (hd : dni.newDesc = d)
  (hrdn : rdnValue modlist dni.oldDesc .softadd = if dni.oldDesc = dni.newDesc then some b else none)

include hr hsymm hd hrdn

theorem dropNew_compare_right {dels : List ν} (ho : attrFind old d = some o) (hh : Holds mr d (some o) o.vals)
    (hno : Normal mr o.vals) (hn : (attrFind new d).map (·.vals) = some ns) (hnn : Normal mr ns) (hne : ns ≠ []) (hb : b ∈ ns)
    (ha : ∀ v, oa = some v → v ∈ o.vals)
    (hdels : ∀ v, v ∈ dels ↔ (v ∈ o.vals ∧ v ∉ ns) ∧ oa ≠ some v) (hadds : adds = ns.filter (· ∉ o.vals)) :
    (∃ ms', dropNew modlist dni (valuesOpt .delete d mr dels ++ valuesOpt .add d mr adds) = .ok ms' ∧
        CellRight sch.toModSchema old new d (rdnMods mr d oa (some b) ++ ms')) ↔
      (∀ v, oa = some v → v ∈ ns → v = b) ∧
        (adds ≠ [] → (adds.length = 1 → adds = [b]) ∧ (adds.length ≠ 1 → dni.oldDesc = dni.newDesc) ∧
          (b ∈ adds → ∀ v ∈ o.vals, Matches mr v b → oa = some v)) := by
  have hmem : ∀ v, v ∈ adds ↔ v ∈ ns ∧ v ∉ o.vals := fun v => by rw [hadds]; simp
  have hnd : adds.Nodup := hadds ▸ hnn.nodup.sublist filter_sublist
  obtain ⟨hfew, hnone, hsome⟩ := @dropNew_compare _ _ _ _ _ mr d b modlist dni dels adds hd hnd
  have hright : ∀ adds' : List ν, adds'.Nodup → (∀ v ∈ adds', v ∈ adds ∧ v ≠ b) →
      (CellRight sch.toModSchema old new d
          (rdnMods mr d oa (some b) ++ (valuesOpt .delete d mr dels ++ valuesOpt .add d mr adds')) ↔
        (∀ v, oa = some v → v ∈ ns → v = b ∨ v ∈ adds') ∧ (∀ v ∈ ns, v ∉ o.vals → v = b ∨ v ∈ adds') ∧
          (b ∉ o.vals → b ∉ adds' → ∀ u ∈ o.vals, Matches mr u b → oa = some u)) := by
    intro adds' hnd' hin
    rw [compare_right_iff hr hsymm ho hh hno hn hnn hne ha (fun v hv => Option.some.inj hv ▸ hb) hdels
      (fun v hv => ⟨((hmem v).mp (hin v hv).1).1, ((hmem v).mp (hin v hv).1).2,
        fun h => (hin v hv).2 (Option.some.inj h).symm⟩) hnd',
      values_there_iff hno hb]
  by_cases hlen : adds.length ≤ 1
  · have hnil := hright [] nodup_nil (by simp)
    rw [hfew hlen]
    constructor
    · rintro ⟨ms', hms, hcell⟩
      obtain rfl := Except.ok.inj hms
      obtain ⟨hold, hnew, hclash⟩ := hnil.mp hcell
      refine ⟨fun v hv hin => (hold v hv hin).resolve_right not_mem_nil, fun hne => ⟨fun hone => ?_, fun hmany => ?_, ?_⟩⟩
      · obtain ⟨w, hw⟩ := List.length_eq_one_iff.mp hone
        obtain ⟨hin, hout⟩ := (hmem w).mp (hw ▸ mem_singleton_self w)
        rw [hw, (hnew w hin hout).resolve_right not_mem_nil]
      · have hpos := length_pos_of_ne_nil hne
        omega
      · exact fun hadd => hclash ((hmem b).mp hadd).2 not_mem_nil
    · rintro ⟨hold, hnew⟩
      refine ⟨_, rfl, hnil.mpr ⟨fun v hv hin => .inl (hold v hv hin), fun v hin hout => .inl ?_, fun hout _ => ?_⟩⟩
      · have hadd := (hmem v).mpr ⟨hin, hout⟩
        have hpos := length_pos_of_mem hadd
        rw [(hnew (ne_nil_of_mem hadd)).1 (by omega)] at hadd
        exact List.mem_singleton.mp hadd
      · have hadd := (hmem b).mpr ⟨hb, hout⟩
        exact (hnew (ne_nil_of_mem hadd)).2.2 hadd
  have hne' : adds ≠ [] := fun h => hlen (by rw [h]; exact Nat.zero_le 1)
  by_cases hsame : dni.oldDesc = dni.newDesc
  · rw [if_pos hsame] at hrdn
    obtain ⟨adds', hdrop, hnd', hmem'⟩ := hsome (by omega) hrdn
    have hmany := hright adds' hnd' fun v hv => (hmem' v).mp hv
    rw [hdrop]
    constructor
    · rintro ⟨ms', hms, hcell⟩
      obtain rfl := Except.ok.inj hms
      obtain ⟨hold, -, hclash⟩ := hmany.mp hcell
      refine ⟨fun v hv hin => (hold v hv hin).resolve_right fun hadd => ?_,
          fun _ => ⟨fun hone => absurd hone (by omega), fun _ => hsame, ?_⟩⟩
      · exact ((hmem v).mp ((hmem' v).mp hadd).1).2 (ha v hv)
      · exact fun hadd => hclash ((hmem b).mp hadd).2 fun h => ((hmem' b).mp h).2 rfl
    · rintro ⟨hold, hnew⟩
      refine ⟨_, rfl, hmany.mpr ⟨fun v hv hin => .inl (hold v hv hin), fun v hin hout => ?_, fun hout _ => ?_⟩⟩
      · by_cases hvb : v = b
        · exact .inl hvb
        · exact .inr ((hmem' v).mpr ⟨(hmem v).mpr ⟨hin, hout⟩, hvb⟩)
      · exact (hnew hne').2.2 ((hmem b).mpr ⟨hb, hout⟩)
  · rw [if_neg hsame] at hrdn
    rw [hnone (by omega) hrdn]
    refine iff_of_false ?_ fun h => hsame ((h.2 hne').2.1 (by omega))
    rintro ⟨ms', hms, -⟩
    cases hms

omit hr hsymm hrdn [DecidableEq ν] in
theorem newValue_replace {n : Attr δ ν} (hms : modsOf mods d = [replaceMod n]) : NewValue dni old mods a b mr := by
  intro mod hmod hop
  rw [hd, hms, mem_singleton] at hmod
  subst hmod
  cases hop

theorem new_right_iff (hO : EntryOk sch.toModSchema old) (hN : EntryOk sch.toModSchema new) (hst : Stored sch.toModSchema old d)
    (hs : ValueShape mr old new d ms) (hms : modsOf mods d = ms) (hb : b ∈ valuesOf new d) (hne : dni.oldDesc ≠ dni.newDesc) :
    (∃ ms', dropNew modlist dni ms = .ok ms' ∧ CellRight sch.toModSchema old new d (rdnMods mr d none (some b) ++ ms')) ↔
      NewValue dni old mods a b mr := by
  cases hs with
  | left hn =>
    rw [valuesOf_none hn] at hb
    cases hb
  | delete _ hn =>
    rw [valuesOf_none hn] at hb
    cases hb
  | @replace n hnd hn =>
    rw [valuesOf_some hn] at hb
    have hbn := (normal_new hr hN hn).1.norm b hb
    refine iff_of_true ⟨_, dropNew_replaceMod, ?_⟩ (newValue_replace hd hms)
    obtain ⟨hh, hno⟩ := holds_find hr hO hst
    obtain ⟨y, vs, hy, hy', -, -⟩ := cellRun_rdn (a := none) (b := some b) hr hsymm hh hno (by simp)
      (fun v hv => Option.some.inj hv ▸ hbn)
    refine replace_right hn hnd hy ?_
    rintro o' rfl
    exact hy'.1
  | @compare o news ho hn hlive =>
    obtain ⟨hh, hno⟩ := holds_old hr hO hst ho
    obtain ⟨hnn, hnne⟩ := normal_new hr hN hn
    rw [valuesOf_some hn] at hb
    rw [newValue_compare hd hms (valuesOf_find ho), dropNew_compare_right hr hsymm hd hrdn ho hh hno hn hnn hnne hb
      (fun _ hv => absurd hv (Option.some_ne_none _).symm) (fun v => by simp) rfl]
    constructor
    · rintro ⟨-, hnew⟩ hadds
      obtain ⟨hone, hmany, hclash⟩ := hnew hadds
      exact ⟨hone, hmany, fun hadd v hv hm => absurd (hclash hadd v hv hm) (by simp)⟩
    · intro hnew
      refine ⟨by simp, fun hadds => ?_⟩
      obtain ⟨hone, hmany, hclash⟩ := hnew hadds
      exact ⟨hone, hmany, fun hadd v hv hm => absurd (hclash hadd v hv hm).2.1 hne⟩

theorem same_right_iff (hN : EntryOk sch.toModSchema new) (ho : attrFind old d = some o) (hh : Holds mr d (some o) o.vals)
    (hno : Normal mr o.vals) (ha : a ∈ o.vals) (hs : ValueShape mr old new d ms) (hms : modsOf mods d = ms)
    (hb : b ∈ valuesOf new d)
    (hsame : dni.oldDesc = dni.newDesc) (hcount : dni.oldNcount = o.vals.length)
    (hold : dni.delOldRdn = true → rdnValue modlist d .delete = some a) :
    (∃ ms₁ got ms', dropOldOpt modlist dni ms = .ok (ms₁, got) ∧ dropNewOpt modlist dni got ms₁ = .ok ms' ∧
        CellRight sch.toModSchema old new d (rdnMods mr d (oldOpt dni a) (some b) ++ ms')) ↔
      OldValue dni new mods a b ∧ NewValue dni old mods a b mr := by
  have hoa : ∀ v, oldOpt dni a = some v → v ∈ o.vals := fun v hv => (oldOpt_some.mp hv).2 ▸ ha
  have hod : dni.oldDesc = d := hsame.trans hd
  cases hs with
  | left hn =>
    rw [valuesOf_none hn] at hb
    cases hb
  | delete _ hn =>
    rw [valuesOf_none hn] at hb
    cases hb
  | @replace n hnd hn =>
    rw [valuesOf_some hn] at hb
    obtain ⟨hnn, hnne⟩ := normal_new hr hN hn
    obtain ⟨y, vs, hy, hy', hvs, hmem⟩ := cellRun_rdn (b := some b) hr hsymm hh hno hoa
        (fun v hv => Option.some.inj hv ▸ hnn.norm b hb)
    rw [← ho] at hy
    have hcond : OldValue dni new mods a b ∧ NewValue dni old mods a b mr :=
      ⟨fun _ _ => .inl ⟨replaceMod n, by rw [hod, hms]; exact mem_singleton_self _, rfl⟩, newValue_replace hd hms⟩
    refine iff_of_true ?_ hcond
    by_cases hdrop : dni.delOldRdn = true ∧ n.vals.length ≤ 1 ∧ dni.oldNcount = 1
    · obtain ⟨hdel, hle, hone⟩ := hdrop
      have hgot : dropOldOpt modlist dni [replaceMod n] = .ok ([], true) := by
        unfold dropOldOpt
        rw [if_pos hdel, dropOld_replaceMod (hod.trans hnd.symm), if_pos ⟨hsame, hle, hone⟩]
      refine ⟨_, _, [], hgot, rfl, ?_⟩
      rw [List.append_nil, cellRight_iff hy, hn, holds_right hy' hnne, perm_ext_iff_of_nodup hvs.nodup hnn.nodup]
      rw [hcount] at hone
      obtain ⟨u, hu⟩ := List.length_eq_one_iff.mp hone
      have hpos := length_pos_of_mem hb
      obtain ⟨w, hw⟩ := List.length_eq_one_iff.mp (show n.vals.length = 1 by omega)
      rw [hw, mem_singleton] at hb
      rw [hu, mem_singleton] at ha
      subst hb ha
      have hoa' : oldOpt dni a = some a := if_pos hdel
      intro v
      rw [hmem, hw, hu, hoa']
      simp [eq_comm]
    · have hkeep : dropOldOpt modlist dni [replaceMod n] = .ok ([replaceMod n], false) := by
        unfold dropOldOpt
        split_ifs with hdel
        · rw [dropOld_replaceMod (hod.trans hnd.symm), if_neg fun h => hdrop ⟨hdel, h.2⟩]
        · rfl
      refine ⟨_, _, _, hkeep, dropNew_replaceMod, replace_right hn hnd hy ?_⟩
      rintro o' rfl
      exact hy'.1
  | @compare o' news ho' hn hlive =>
    obtain rfl := Option.some.inj (ho.symm.trans ho')
    obtain ⟨hnn, hnne⟩ := normal_new hr hN hn
    rw [valuesOf_some hn] at hb
    obtain ⟨dels, hdrop, hdels⟩ := dropOldOpt_compare (news.filter (· ∉ o.vals)) hod hno hlive hcount hold
    have hone : (∃ ms₁ got ms', dropOldOpt modlist dni (valuesOpt .delete d mr (o.vals.filter (· ∉ news)) ++
          valuesOpt .add d mr (news.filter (· ∉ o.vals))) = .ok (ms₁, got) ∧ dropNewOpt modlist dni got ms₁ = .ok ms' ∧
            CellRight sch.toModSchema old new d (rdnMods mr d (oldOpt dni a) (some b) ++ ms')) ↔
        ∃ ms', dropNew modlist dni (valuesOpt .delete d mr dels ++ valuesOpt .add d mr (news.filter (· ∉ o.vals))) = .ok ms' ∧
          CellRight sch.toModSchema old new d (rdnMods mr d (oldOpt dni a) (some b) ++ ms') := by
      rw [hdrop]
      constructor
      · rintro ⟨ms₁, got, ms', hms₁, hms', hcell⟩
        obtain ⟨rfl, rfl⟩ := Prod.mk.inj (Except.ok.inj hms₁)
        exact ⟨ms', hms', hcell⟩
      · rintro ⟨ms', hms', hcell⟩
        exact ⟨_, false, ms', rfl, hms', hcell⟩
    rw [hone, dropNew_compare_right hr hsymm hd hrdn ho hh hno hn hnn hnne hb hoa hdels rfl,
      newValue_compare hd hms (valuesOf_find ho)]
    refine and_congr ⟨fun h hdel hin => .inr ⟨hsame, ?_⟩, fun h v hv hin => ?_⟩ (imp_congr_right fun _ => and_congr_right fun _ =>
      and_congr_right fun _ => imp_congr_right fun _ => forall_congr' fun v => imp_congr_right fun _ =>
          imp_congr_right fun _ => ?_)
    · rw [hod, valuesOf_some hn] at hin
      exact h a (oldOpt_some.mpr ⟨hdel, rfl⟩) hin
    · obtain ⟨hdel, rfl⟩ := oldOpt_some.mp hv
      rcases h hdel (by rw [hod, valuesOf_some hn]; exact hin) with ⟨mod, hmod, hop⟩ | ⟨-, heq⟩
      · rw [hod, hms] at hmod
        rcases mem_compare hmod with rfl | ⟨rfl, -⟩ <;> cases hop
      · exact heq
    · rw [oldOpt_some]
      exact and_congr_right fun _ => (and_iff_right hsame).symm

end New

end Named

end Sync
end ReOpenLDAP
