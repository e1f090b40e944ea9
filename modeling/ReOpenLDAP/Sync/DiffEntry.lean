import ReOpenLDAP.Slapd.Mods
import Mathlib.Data.List.Infix

/-!
# Sync.DiffEntry

The modifications with which a consumer turns its entry into the provider's.
-/

namespace ReOpenLDAP
namespace Sync

open Slapd List Option

variable {δ ν : Type} [DecidableEq δ] [DecidableEq ν]

/-- The schema, with the descriptions that `syncrepl_diff_entry` names. -/
structure DiffSchema (δ ν : Type) extends ModSchema δ ν where
  objectClass : δ
  contextCSN : δ
  modifiersName : δ
  modifyTimestamp : δ

def replaceMod (a : Attr δ ν) : Modification δ ν := ⟨.replace, a.desc, some a.vals, a.nvals⟩

/-- The first value from place `k` on that is not taken yet and is the same. -/
def findMatch (v : ν) : Nat → List Bool → List ν → Option Nat
  | k, add :: adds, w :: news => if add ∧ v = w then some k else findMatch v (k + 1) adds news
  | _, _, _ => none

/-- The loop of `attr_cmp` over the old values: the marks of `dels`, those of `adds`, and the last `j`. -/
def matchValues (news : List ν) : List ν → List Bool → Nat → List Bool × List Bool × Nat
  | [], adds, j => ([], adds, j)
  | v :: olds, adds, _ =>
    match findMatch v 0 adds news with
    | some j => let r := matchValues news olds (adds.set j false) j; (false :: r.1, r.2)
    | none => let r := matchValues news olds adds news.length; (true :: r.1, r.2)

/-- The end of `attr_cmp`: the modification is moved over, or passed by. -/
def advance (i j : Int) (mods ml : List (Modification δ ν)) : List (Modification δ ν) × List (Modification δ ν) :=
  match ml with
  | [] => (mods, [])
  | mod :: ml => if i ≠ j then (mods ++ [mod], ml) else (mods, ml)

/-- `attr_cmp`; `none` is a failed assertion. -/
def attrCmp (sch : DiffSchema δ ν) (old : Option (Attr δ ν)) (new : Attr δ ν) (mods ml : List (Modification δ ν)) :
    Option (List (Modification δ ν) × List (Modification δ ν)) :=
  match old with
  | none => some (advance 0 1 mods ml)
  | some old =>
    let o := old.vals.length
    let n := new.vals.length
    if o = 0 ∨ n = 0 then none
    else
      let (dels, adds, last) := matchValues new.vals old.vals (List.replicate n true) 0
      let nn := adds.count true
      let no := dels.count true
      let no :=
        if (nn ≠ 0 ∨ 0 < no ∧ no < o) ∧ (old.desc = sch.objectClass ∨ sch.equality old.desc = none) then o else no
      let j : Int := last
      let i : Int := if no = o then j - 1 else if no ≠ 0 then no else j
      let j : Int := if no ≠ o ∧ no ≠ 0 then no else j
      let mods :=
        if no ≠ o ∧ no ≠ 0 then
          mods ++ [⟨.delete, old.desc, some (masked dels old.vals), old.nvals.map (masked dels)⟩]
        else mods
      let i : Int := if nn ≠ 0 ∧ no < o then nn else i
      let j : Int := if nn ≠ 0 ∧ no < o then nn else j
      let mods :=
        if nn ≠ 0 ∧ no < o then
          mods ++ [⟨.add, old.desc, some (masked adds new.vals),
            if old.nvals.isSome then some (masked adds new.norms) else none⟩]
        else mods
      some (advance i j mods ml)

structure DiffState (δ ν : Type) where
  old : List (Attr δ ν)
  new : List (Attr δ ν)
  mods : List (Modification δ ν)
  ml : List (Modification δ ν)
deriving DecidableEq

/-- `tmp->a_flags |= SLAP_ATTR_IXADD` -/
def markSeen (a : Attr δ ν) : Attr δ ν := { a with ixadd := true }

/-- One round of the loop of `syncrepl_diff_entry`; `none` at a failed assertion, and at the end of a list. -/
def diffStep (sch : DiffSchema δ ν) (isCtx : Bool) (s : DiffState δ ν) : Option (DiffState δ ν) :=
  match s.old, s.new with
  | old :: olds, new :: news =>
    if new.ixadd then
      (attrCmp sch none new s.mods s.ml).map fun r => { s with new := news, mods := r.1, ml := r.2 }
    else if isCtx ∧ old.desc = sch.contextCSN then some { s with old := olds }
    else if old.desc ≠ new.desc then
      if (attrFind (new :: news) old.desc).isSome then
        some { s with old := olds, new := attrSet (new :: news) old.desc markSeen }
      else if (attrFind (old :: olds) new.desc).isNone then
        (attrCmp sch none new s.mods s.ml).map fun r => { s with new := news, mods := r.1, ml := r.2 }
      else some { s with old := olds, mods := s.mods ++ [⟨.delete, old.desc, none, none⟩] }
    else
      let always := s.mods ≠ [] ∧ (old.desc = sch.modifiersName ∨ old.desc = sch.modifyTimestamp)
      (attrCmp sch (if always then none else some old) new s.mods s.ml).map fun r => ⟨olds, news, r.1, r.2⟩
  | _, _ => none

/-- The loop; every round passes an attribute, so that `k` is the number of those ahead. -/
def diffLoop (sch : DiffSchema δ ν) (isCtx : Bool) : Nat → DiffState δ ν → Option (DiffState δ ν)
  | 0, s => some s
  | k + 1, s => if s.old = [] ∨ s.new = [] then some s else (diffStep sch isCtx s).bind (diffLoop sch isCtx k)

/-- `syncrepl_diff_entry`: what it leaves in `mods`. -/
def syncreplDiffEntry (sch : DiffSchema δ ν) (isCtx : Bool) (old new : List (Attr δ ν)) (ml : List (Modification δ ν)) :
    Option (List (Modification δ ν)) :=
  (diffLoop sch isCtx (old.length + new.length) ⟨old, new, [], ml⟩).map fun s => s.mods ++ s.ml

/-! ## The modify rules -/

def applyMod (sch : ModSchema δ ν) (attrs : List (Attr δ ν)) (mod : Modification δ ν) :
    Except ModRc (List (Attr δ ν)) :=
  match mod.op with
  | .add => modifyAddValues sch attrs mod false
  | .delete =>
    match modifyDeleteValues sch attrs mod false with
    | (none, attrs) => .ok attrs
    | (some rc, _) => .error rc
  | .replace => modifyReplaceValues sch attrs mod false
  | .increment => modifyIncrementValues sch attrs mod false
  | _ => .error .other

def applyMods (sch : ModSchema δ ν) (attrs : List (Attr δ ν)) (mods : List (Modification δ ν)) :
    Except ModRc (List (Attr δ ν)) :=
  mods.foldlM (applyMod sch) attrs

/-- An attribute of an entry: it has values, normalized by its rule, and no two of them match. -/
structure AttrOk (sch : ModSchema δ ν) (a : Attr δ ν) : Prop where
  vals : a.vals ≠ []
  length : a.norms.length = a.vals.length
  norm : ∀ mr, sch.equality a.desc = some mr → a.vals.map mr.norm = a.norms.map some
  distinct : ∀ mr, sch.equality a.desc = some mr → mr.Distinct a.norms

omit [DecidableEq δ] [DecidableEq ν] in
theorem AttrOk.seen {sch : ModSchema δ ν} {a : Attr δ ν} (h : AttrOk sch a) : AttrOk sch (markSeen a) :=
  ⟨h.vals, h.length, h.norm, h.distinct⟩

structure EntryOk (sch : ModSchema δ ν) (attrs : List (Attr δ ν)) : Prop where
  nodup : (attrs.map (·.desc)).Nodup
  attr : ∀ a ∈ attrs, AttrOk sch a

def SameValues (attrs attrs' : List (Attr δ ν)) (d : δ) : Prop :=
  Option.Rel List.Perm ((attrFind attrs d).map (·.vals)) ((attrFind attrs' d).map (·.vals))

/-- The modifications succeed, and leave the values of the new entry; the `contextCSN` of the context entry is no matter. -/
def DiffRight (sch : DiffSchema δ ν) (isCtx : Bool) (old new : List (Attr δ ν)) : Prop :=
  ∃ mods attrs, syncreplDiffEntry sch isCtx old new (new.map replaceMod) = some mods ∧
    applyMods sch.toModSchema old mods = .ok attrs ∧
    ∀ d, ¬ (isCtx = true ∧ d = sch.contextCSN) → SameValues attrs new d

/-- An old attribute that is passed by: the `contextCSN` of the context entry, which the new entry lacks. -/
def Passed (sch : DiffSchema δ ν) (isCtx : Bool) (new : List (Attr δ ν)) (a : Attr δ ν) : Prop :=
  isCtx = true ∧ a.desc = sch.contextCSN ∧ attrFind new a.desc = none

instance (sch : DiffSchema δ ν) (isCtx : Bool) (new : List (Attr δ ν)) : DecidablePred (Passed sch isCtx new) :=
  fun _ => inferInstanceAs (Decidable (_ ∧ _))

def KeepsLast (sch : DiffSchema δ ν) (isCtx : Bool) (old new : List (Attr δ ν)) : Prop :=
  ∀ a, (old.filter fun a => ¬ Passed sch isCtx new a).getLast? = some a → (attrFind new a.desc).isSome

section Match

variable {news olds : List ν} {adds : List Bool}

theorem findMatch_some {v : ν} {k j : Nat} (h : findMatch v k adds news = some j) :
    ∃ i, j = k + i ∧ (masked adds news).Perm (v :: masked (adds.set i false) news) := by
  induction adds generalizing k news with
  | nil => cases h
  | cons add adds ih =>
    cases news with
    | nil => cases h
    | cons w news =>
      unfold findMatch at h
      by_cases hw : add = true ∧ v = w
      · rw [if_pos hw] at h
        obtain ⟨rfl, rfl⟩ := hw
        exact ⟨0, (Option.some.inj h).symm, List.Perm.refl _⟩
      · rw [if_neg hw] at h
        obtain ⟨i, rfl, hp⟩ := ih h
        refine ⟨i + 1, by omega, ?_⟩
        cases add with
        | false => exact hp
        | true => exact (hp.cons w).trans (List.Perm.swap v w _)

theorem matchValues_perm (j : Nat) (h : adds.length = news.length) :
    (matchValues news olds adds j).1.length = olds.length ∧
      (matchValues news olds adds j).2.1.length = news.length ∧
      (masked ((matchValues news olds adds j).1.map not) olds ++ masked (matchValues news olds adds j).2.1 news).Perm
        (masked adds news) := by
  induction olds generalizing adds j with
  | nil => exact ⟨rfl, h, List.Perm.refl _⟩
  | cons v olds ih =>
    unfold matchValues
    cases hf : findMatch v 0 adds news with
    | none =>
      obtain ⟨hl, hl', hp⟩ := ih news.length h
      exact ⟨congrArg (· + 1) hl, hl', hp⟩
    | some k =>
      obtain ⟨i, rfl, hp⟩ := findMatch_some hf
      rw [Nat.zero_add] at *
      obtain ⟨hl, hl', hp'⟩ := @ih (adds.set i false) i (by rw [length_set, h])
      exact ⟨congrArg (· + 1) hl, hl', (hp'.cons v).trans hp.symm⟩

end Match

section Gives

variable {sch : ModSchema δ ν} {attrs attrs' : List (Attr δ ν)} {d : δ} {a : Attr δ ν}

theorem applyMods_append {mods mods' : List (Modification δ ν)} (h : applyMods sch attrs mods = .ok attrs') :
    applyMods sch attrs (mods ++ mods') = applyMods sch attrs' mods' := by
  unfold applyMods at h ⊢
  rw [foldlM_append, h]
  rfl

theorem applyMods_cons {mod : Modification δ ν} {mods : List (Modification δ ν)} (h : applyMod sch attrs mod = .ok attrs') :
    applyMods sch attrs (mod :: mods) = applyMods sch attrs' mods := by
  unfold applyMods
  rw [foldlM_cons, h]
  rfl

/-- The modifications give the attribute of `d` the values `v`, and leave the others. -/
def Gives (sch : ModSchema δ ν) (attrs : List (Attr δ ν)) (mods : List (Modification δ ν)) (d : δ)
    (v : Option (List ν)) : Prop :=
  ∃ attrs' b, applyMods sch attrs mods = .ok attrs' ∧ Sets attrs attrs' d b ∧ Option.Rel List.Perm (b.map (·.vals)) v

theorem gives_replaceMod (hn : (attrs.map (·.desc)).Nodup) (a : Attr δ ν) :
    Gives sch attrs [replaceMod a] a.desc (some a.vals) := by
  have hvals : (replaceMod a).values = some a.vals := rfl
  obtain ⟨attrs', happ, hs⟩ := modifyReplaceValues_sets (p := false) hn hvals
  exact ⟨attrs', _, applyMods_cons happ, hs, .some (List.Perm.refl _)⟩

theorem gives_nil (hn : (attrs.map (·.desc)).Nodup) (d : δ) :
    Gives sch attrs [] d ((attrFind attrs d).map (·.vals)) := by
  refine ⟨attrs, attrFind attrs d, rfl, ⟨hn, fun _ _ => rfl, rfl⟩, ?_⟩
  cases attrFind attrs d with
  | none => exact .none
  | some a => exact .some (List.Perm.refl _)

theorem gives_delete (hn : (attrs.map (·.desc)).Nodup) (ha : attrFind attrs d = some a) :
    Gives sch attrs [⟨.delete, d, none, none⟩] d none := by
  refine ⟨attrDelete attrs d, none, applyMods_cons ?_, sets_attrDelete hn d, .none⟩
  unfold applyMod modifyDeleteValues
  simp [ha]

end Gives

section AttrCmp

variable {sch : DiffSchema δ ν} {attrs : List (Attr δ ν)} {old new : Attr δ ν} {dels adds : List Bool}
  {mods ml : List (Modification δ ν)}

omit [DecidableEq δ] [DecidableEq ν] in
theorem AttrOk.norm_masked {a : Attr δ ν} (ha : AttrOk sch.toModSchema a) {mr : EqualityRule ν}
    (hr : sch.equality a.desc = some mr) (ms : List Bool) :
    (masked ms a.vals).map mr.norm = (masked ms a.norms).map some := by
  rw [← masked_map, ← masked_map, ha.norm mr hr]

omit [DecidableEq δ] [DecidableEq ν] in
theorem norms_masked (a : Attr δ ν) (ms : List Bool) :
    Attr.norms { a with vals := masked ms a.vals, nvals := a.nvals.map (masked ms) } = masked ms a.norms := by
  unfold Attr.norms
  cases a.nvals <;> rfl

omit [DecidableEq δ] [DecidableEq ν] in
theorem added_distinct {mr : EqualityRule ν} (hold : AttrOk sch.toModSchema old) (hnew : AttrOk sch.toModSchema new)
    (hr : sch.equality old.desc = some mr) (hdesc : old.desc = new.desc)
    (hp : (masked (dels.map not) old.vals ++ masked adds new.vals).Perm new.vals) :
    ∀ w ∈ masked adds new.norms, ∀ s ∈ masked (dels.map not) old.norms, mr.cmp s w ≠ .eq := by
  have hr' : sch.equality new.desc = some mr := hdesc ▸ hr
  have hsome : ((masked (dels.map not) old.norms ++ masked adds new.norms).map some).Perm (new.norms.map some) := by
    rw [map_append, ← hold.norm_masked hr, ← hnew.norm_masked hr', ← hnew.norm mr hr', ← map_append]
    exact hp.map mr.norm
  have hnorms := (map_perm_map_iff (fun _ _ => Option.some.inj)).mp hsome
  have hpair := (hnorms.pairwise_iff fun h => ⟨h.2, h.1⟩).mpr (hnew.distinct mr hr')
  intro w hw s hs
  exact ((List.pairwise_append.mp hpair).2.2 s hs w hw).1

/-- `dels` and `adds` as modifications. -/
def delMods (old : Attr δ ν) (dels : List Bool) : List (Modification δ ν) :=
  if dels.count true ≠ 0 then [⟨.delete, old.desc, some (masked dels old.vals), old.nvals.map (masked dels)⟩] else []

def addMods (old new : Attr δ ν) (adds : List Bool) : List (Modification δ ν) :=
  if adds.count true ≠ 0 then
    [⟨.add, old.desc, some (masked adds new.vals), if old.nvals.isSome then some (masked adds new.norms) else none⟩]
  else []

/-- The attribute without the values of `dels`. -/
def kept (old : Attr δ ν) (dels : List Bool) : Attr δ ν :=
  { old with vals := masked (dels.map not) old.vals, nvals := old.nvals.map (masked (dels.map not)) }

theorem delMods_sets (hn : (attrs.map (·.desc)).Nodup) (ha : attrFind attrs old.desc = some old)
    (hold : AttrOk sch.toModSchema old) (hl : dels.length = old.vals.length) (hsome : dels.count true < old.vals.length)
    (hr : sch.equality old.desc = none → dels.count true = 0) :
    ∃ attrs', applyMods sch.toModSchema attrs (delMods old dels) = .ok attrs' ∧
      Sets attrs attrs' old.desc (some (kept old dels)) := by
  unfold delMods
  by_cases hc : dels.count true = 0
  · have hkept : kept old dels = old := by
      unfold kept
      have hnv : old.nvals.map (masked (dels.map not)) = old.nvals := by
        cases hnv : old.nvals with
        | none => rfl
        | some ns =>
          have hns : old.norms = ns := by simp [Attr.norms, hnv]
          rw [map_some, masked_not_all (hl.trans (hns ▸ hold.length.symm)) hc]
      rw [masked_not_all hl hc, hnv]
    rw [if_neg (not_not.mpr hc), hkept]
    exact ⟨attrs, rfl, hn, fun _ _ => rfl, ha⟩
  · obtain hnone | ⟨mr, hmr⟩ := eq_none_or_eq_some (sch.equality old.desc)
    · exact absurd (hr hnone) hc
    · have hlive : masked (dels.map not) old.vals ≠ [] := by
        intro h
        have := masked_not_length hl
        rw [h] at this
        simp at this
        omega
      obtain ⟨attrs', happ, hs⟩ := modifyDeleteValues_sets hn hmr ha (hold.norm mr hmr) (hold.distinct mr hmr) hl hlive
      rw [if_pos hc]
      refine ⟨attrs', applyMods_cons ?_, hs⟩
      unfold applyMod
      simp only [happ]

theorem addMods_gives (hn : (attrs.map (·.desc)).Nodup) (ha : attrFind attrs old.desc = some (kept old dels))
    (hold : AttrOk sch.toModSchema old) (hnew : AttrOk sch.toModSchema new) (hdesc : old.desc = new.desc)
    (hl : adds.length = new.vals.length)
    (hp : (masked (dels.map not) old.vals ++ masked adds new.vals).Perm new.vals)
    (hr : sch.equality old.desc = none → adds.count true = 0) :
    Gives sch.toModSchema attrs (addMods old new adds) old.desc (some new.vals) := by
  have hlen := masked_length hl
  unfold addMods
  by_cases hc : adds.count true = 0
  · have hnil : masked adds new.vals = [] := eq_nil_of_length_eq_zero (hlen.trans hc)
    rw [if_neg (not_not.mpr hc)]
    rw [hnil, List.append_nil] at hp
    exact ⟨attrs, _, rfl, ⟨hn, fun _ _ => rfl, ha⟩, .some hp⟩
  · obtain hnone | ⟨mr, hmr⟩ := eq_none_or_eq_some (sch.equality old.desc)
    · exact absurd (hr hnone) hc
    · have hvs : masked adds new.vals ≠ [] := by
        intro h
        rw [h] at hlen
        exact hc hlen.symm
      have hdist : ∀ w ∈ masked adds new.norms, ∀ s ∈ (kept old dels).norms, mr.cmp s w ≠ .eq := by
        unfold kept
        rw [norms_masked]
        exact added_distinct hold hnew hmr hdesc hp
      obtain ⟨attrs', happ, hs⟩ := modifyAddValues_sets hn .add false hmr ha
        (hnew.norm_masked (hdesc ▸ hmr) adds) hdist hvs
      rw [if_pos hc]
      refine ⟨attrs', _, applyMods_cons ?_, hs, .some hp⟩
      have hsome : (kept old dels).nvals.isSome = old.nvals.isSome := isSome_map
      rw [hsome] at happ
      exact happ

theorem attrCmp_none : attrCmp sch none new mods (replaceMod new :: ml) = some (mods ++ [replaceMod new], ml) := rfl

theorem attrCmp_cases (ho : old.vals ≠ []) (hn : new.vals ≠ []) :
    ∃ mods', attrCmp sch (some old) new mods (replaceMod new :: ml) = some (mods ++ mods', ml) ∧
      (mods' = [replaceMod new] ∨ ∃ dels adds last,
        matchValues new.vals old.vals (List.replicate new.vals.length true) 0 = (dels, adds, last) ∧
          mods' = delMods old dels ++ addMods old new adds ∧ dels.count true < old.vals.length ∧
          (sch.equality old.desc = none → dels.count true = 0 ∧ adds.count true = 0)) := by
  have hne : ¬ (old.vals.length = 0 ∨ new.vals.length = 0) := by
    rintro (h | h)
    · exact ho (eq_nil_of_length_eq_zero h)
    · exact hn (eq_nil_of_length_eq_zero h)
  obtain ⟨hl, -, -⟩ := @matchValues_perm _ _ new.vals old.vals (List.replicate new.vals.length true) 0 length_replicate
  unfold attrCmp
  dsimp only
  rw [if_neg hne]
  generalize hr : matchValues new.vals old.vals (List.replicate new.vals.length true) 0 = r at hl ⊢
  obtain ⟨dels, adds, last⟩ := r
  dsimp only at hl ⊢
  generalize hno : (if (adds.count true ≠ 0 ∨ 0 < dels.count true ∧ dels.count true < old.vals.length) ∧
      (old.desc = sch.objectClass ∨ sch.equality old.desc = none) then old.vals.length else dels.count true) = no
  by_cases hrep : no = old.vals.length
  · have hdel : ¬ (no ≠ old.vals.length ∧ no ≠ 0) := fun h => h.1 hrep
    have hadd : ¬ (adds.count true ≠ 0 ∧ no < old.vals.length) := fun h => absurd h.2 (by omega)
    have hij : (last : Int) - 1 ≠ last := by omega
    refine ⟨[replaceMod new], ?_, .inl rfl⟩
    rw [if_pos hrep, if_neg hdel, if_neg hdel, if_neg hadd, if_neg hadd, if_neg hadd]
    simp only [advance, if_pos hij]
  · have hcond : ¬ ((adds.count true ≠ 0 ∨ 0 < dels.count true ∧ dels.count true < old.vals.length) ∧
        (old.desc = sch.objectClass ∨ sch.equality old.desc = none)) := by
      intro h
      rw [if_pos h] at hno
      exact hrep hno.symm
    rw [if_neg hcond] at hno
    subst hno
    have hle : dels.count true ≤ dels.length := count_le_length
    have hlt : dels.count true < old.vals.length := by omega
    have hrule : sch.equality old.desc = none → dels.count true = 0 ∧ adds.count true = 0 := by
      intro h
      by_contra hcount
      exact hcond ⟨by omega, .inr h⟩
    refine ⟨delMods old dels ++ addMods old new adds, ?_, .inr ⟨dels, adds, last, rfl, rfl, hlt, hrule⟩⟩
    have hpos : 0 < old.vals.length := Nat.pos_of_ne_zero fun h => hne (.inl h)
    unfold delMods addMods advance
    by_cases hd : dels.count true = 0 <;> by_cases had : adds.count true = 0 <;>
      simp [hd, had, hrep, hlt, hpos, hpos.ne]

theorem compare_gives {last : Nat} (hn : (attrs.map (·.desc)).Nodup) (ha : attrFind attrs old.desc = some old)
    (hold : AttrOk sch.toModSchema old) (hnew : AttrOk sch.toModSchema new) (hdesc : old.desc = new.desc)
    (hmatch : matchValues new.vals old.vals (List.replicate new.vals.length true) 0 = (dels, adds, last))
    (hlt : dels.count true < old.vals.length) (hrule : sch.equality old.desc = none → dels.count true = 0 ∧ adds.count true = 0) :
    Gives sch.toModSchema attrs (delMods old dels ++ addMods old new adds) new.desc (some new.vals) := by
  obtain ⟨hl, hl', hp⟩ := @matchValues_perm _ _ new.vals old.vals (List.replicate new.vals.length true) 0
    length_replicate
  rw [masked_replicate] at hp
  rw [hmatch] at hl hl' hp
  obtain ⟨attrs', happ, hs⟩ := delMods_sets hn ha hold hl hlt fun h => (hrule h).1
  obtain ⟨attrs'', b, happ', hs', hb⟩ := addMods_gives hs.nodup hs.found hold hnew hdesc hl' hp fun h => (hrule h).2
  exact ⟨attrs'', b, by rw [applyMods_append happ, happ'], hdesc ▸ hs.trans hs', hb⟩

end AttrCmp

/-! ## The rounds -/

/-- What a round does: it takes the new attribute, passes the old one (perhaps with a mark in the new entry), deletes it, or
compares the two. -/
inductive Round (sch : DiffSchema δ ν) (isCtx : Bool) (o : Attr δ ν) (os : List (Attr δ ν)) (n : Attr δ ν)
    (ns : List (Attr δ ν)) (mods : List (Modification δ ν)) : DiffState δ ν → Prop
  | take (h : n.ixadd = true ∨ n.desc ∉ (o :: os).map (·.desc)) :
      Round sch isCtx o os n ns mods ⟨o :: os, ns, mods ++ [replaceMod n], ns.map replaceMod⟩
  | pass (h : isCtx = true ∧ o.desc = sch.contextCSN) :
      Round sch isCtx o os n ns mods ⟨os, n :: ns, mods, (n :: ns).map replaceMod⟩
  | mark (h : o.desc ∈ (n :: ns).map (·.desc)) :
      Round sch isCtx o os n ns mods ⟨os, attrSet (n :: ns) o.desc markSeen, mods, (n :: ns).map replaceMod⟩
  | delete (hout : o.desc ∉ (n :: ns).map (·.desc)) (hin : n.desc ∈ os.map (·.desc)) :
      Round sch isCtx o os n ns mods ⟨os, n :: ns, mods ++ [⟨.delete, o.desc, none, none⟩], (n :: ns).map replaceMod⟩
  | replace (h : o.desc = n.desc) : Round sch isCtx o os n ns mods ⟨os, ns, mods ++ [replaceMod n], ns.map replaceMod⟩
  | compare {dels adds : List Bool} {last : Nat} (h : o.desc = n.desc)
      (hmatch : matchValues n.vals o.vals (List.replicate n.vals.length true) 0 = (dels, adds, last))
      (hlt : dels.count true < o.vals.length) (hrule : sch.equality o.desc = none → dels.count true = 0 ∧ adds.count true = 0) :
      Round sch isCtx o os n ns mods ⟨os, ns, mods ++ (delMods o dels ++ addMods o n adds), ns.map replaceMod⟩

/-- An old attribute that the new entry lacks, behind which all are passed by. -/
structure LacksLast (sch : DiffSchema δ ν) (isCtx : Bool) (old new : List (Attr δ ν)) (z : Attr δ ν) : Prop where
  mem : z ∈ old
  lacks : z.desc ∉ new.map (·.desc)
  counts : ¬ (isCtx = true ∧ z.desc = sch.contextCSN)
  behind : ∀ olds, z :: olds <:+ old → ∀ a ∈ olds, Passed sch isCtx new a

/-- What holds between the rounds: `attrs` is `old` with the modifications so far. -/
structure DiffInv (sch : DiffSchema δ ν) (isCtx : Bool) (old new : List (Attr δ ν)) (s : DiffState δ ν)
    (attrs : List (Attr δ ν)) : Prop where
  run : applyMods sch.toModSchema old s.mods = .ok attrs
  nodup : (attrs.map (·.desc)).Nodup
  ml : s.ml = s.new.map replaceMod
  suffix : s.old <:+ old
  ahead : ∀ a ∈ s.old, attrFind attrs a.desc = some a
  newNodup : (s.new.map (·.desc)).Nodup
  newAttr : ∀ a ∈ s.new, AttrOk sch.toModSchema a ∧ (attrFind new a.desc).map (·.vals) = some a.vals
  settled : ∀ d, ¬ (isCtx = true ∧ d = sch.contextCSN) → d ∉ s.old.map (·.desc) → d ∉ s.new.map (·.desc) →
    SameValues attrs new d
  seen : ∀ a ∈ s.new, a.ixadd = true → a.desc ∉ s.old.map (·.desc)
  pending : ∀ a ∈ s.old, a.desc ∈ new.map (·.desc) → a.desc ∈ s.new.map (·.desc)
  stays : ∀ z, LacksLast sch isCtx old new z → z ∈ s.old

section Rounds

variable {sch : DiffSchema δ ν} {isCtx : Bool} {old new attrs : List (Attr δ ν)} {s s' : DiffState δ ν}
  {o n : Attr δ ν} {os ns : List (Attr δ ν)}

theorem DiffInv.mem_new (h : DiffInv sch isCtx old new s attrs) {a : Attr δ ν} (ha : a ∈ s.new) :
    a.desc ∈ new.map (·.desc) := by
  by_contra hout
  have hval := (h.newAttr a ha).2
  rw [attrFind_none.mpr hout] at hval
  cases hval

variable {mods' : List (Modification δ ν)}

theorem DiffInv.next (h : DiffInv sch isCtx old new s attrs) {d : δ}
    {v : Option (List ν)} (hg : Gives sch.toModSchema attrs mods' d v) (hmods : s'.mods = s.mods ++ mods')
    (hml : s'.ml = s'.new.map replaceMod) (hsuf : s'.old <:+ s.old) (hd : d ∉ s'.old.map (·.desc))
    (hnodup : (s'.new.map (·.desc)).Nodup)
    (hattr : ∀ a ∈ s'.new, AttrOk sch.toModSchema a ∧ (attrFind new a.desc).map (·.vals) = some a.vals)
    (hset : ∀ d', ¬ (isCtx = true ∧ d' = sch.contextCSN) → d' ∉ s'.old.map (·.desc) → d' ∉ s'.new.map (·.desc) →
      (d' = d ∧ v = (attrFind new d).map (·.vals)) ∨ (d' ≠ d ∧ d' ∉ s.old.map (·.desc) ∧ d' ∉ s.new.map (·.desc)))
    (hseen : ∀ a ∈ s'.new, a.ixadd = true → a.desc ∉ s'.old.map (·.desc))
    (hpend : ∀ a ∈ s'.old, a.desc ∈ new.map (·.desc) → a.desc ∈ s'.new.map (·.desc))
    (hstays : ∀ z, LacksLast sch isCtx old new z → z ∈ s.old → z ∈ s'.old) :
    ∃ attrs', DiffInv sch isCtx old new s' attrs' := by
  obtain ⟨attrs', b, happ, hs, hb⟩ := hg
  refine ⟨attrs', ?_, hs.nodup, hml, hsuf.trans h.suffix, ?_, hnodup, hattr, ?_, hseen, hpend, ?_⟩
  · rw [hmods, applyMods_append h.run, happ]
  · intro a ha
    have hne : a.desc ≠ d := fun had => hd (had ▸ List.mem_map_of_mem ha)
    rw [hs.frame a.desc hne]
    exact h.ahead a (hsuf.subset ha)
  · intro d' hctx ho hn'
    unfold SameValues
    rcases hset d' hctx ho hn' with ⟨rfl, hv⟩ | ⟨hne, ho', hn''⟩
    · rw [hs.found, ← hv]
      exact hb
    · rw [hs.frame d' hne]
      exact h.settled d' hctx ho' hn''
  · intro z hz
    exact hstays z hz (h.stays z hz)

theorem DiffInv.take (h : DiffInv sch isCtx old new s attrs) (hn : s.new = n :: ns) (hout : n.desc ∉ s.old.map (·.desc)) :
    ∃ attrs', DiffInv sch isCtx old new { s with new := ns, mods := s.mods ++ [replaceMod n], ml := ns.map replaceMod }
      attrs' := by
  have hnodup := h.newNodup
  rw [hn, map_cons, nodup_cons] at hnodup
  have hmem : ∀ a ∈ ns, a ∈ s.new := fun a ha => hn ▸ mem_cons_of_mem n ha
  refine h.next (gives_replaceMod h.nodup n) rfl rfl (suffix_refl _) hout hnodup.2
    (fun a ha => h.newAttr a (hmem a ha)) ?_ (fun a ha => h.seen a (hmem a ha)) ?_ (fun _ _ hz => hz)
  · intro d' _ ho hn'
    by_cases hd : d' = n.desc
    · exact .inl ⟨hd, ((h.newAttr n (hn ▸ mem_cons_self)).2).symm⟩
    · refine .inr ⟨hd, ho, ?_⟩
      rw [hn, map_cons, mem_cons, not_or]
      exact ⟨hd, hn'⟩
  · intro a ha hin
    have hp := h.pending a ha hin
    rw [hn, map_cons, mem_cons] at hp
    rcases hp with hp | hp
    · exact absurd (hp ▸ List.mem_map_of_mem ha) hout
    · exact hp

theorem DiffInv.passOld (h : DiffInv sch isCtx old new s attrs) (hnd : (s.old.map (·.desc)).Nodup) (ho : s.old = o :: os) {v : Option (List ν)} (hg : Gives sch.toModSchema attrs mods' o.desc v)
    {new' : List (Attr δ ν)} (hdesc : new'.map (·.desc) = s.new.map (·.desc))
    (hmods : new'.map replaceMod = s.new.map replaceMod)
    (hattr : ∀ a ∈ new', AttrOk sch.toModSchema a ∧ (attrFind new a.desc).map (·.vals) = some a.vals)
    (hseen : ∀ a ∈ new', a.ixadd = true → a.desc ∉ os.map (·.desc))
    (hv : ¬ (isCtx = true ∧ o.desc = sch.contextCSN) → o.desc ∉ s.new.map (·.desc) →
      v = (attrFind new o.desc).map (·.vals))
    (hlast : ¬ LacksLast sch isCtx old new o) :
    ∃ attrs', DiffInv sch isCtx old new { s with old := os, new := new', mods := s.mods ++ mods' } attrs' := by
  rw [ho, map_cons, nodup_cons] at hnd
  have hsuf : os <:+ s.old := ho ▸ suffix_cons o os
  refine h.next hg rfl (h.ml.trans hmods.symm) hsuf hnd.1 (hdesc ▸ h.newNodup) hattr ?_ hseen ?_ ?_
  · intro d' hctx hos hn'
    rw [hdesc] at hn'
    by_cases hd : d' = o.desc
    · subst hd
      exact .inl ⟨rfl, hv hctx hn'⟩
    · refine .inr ⟨hd, ?_, hn'⟩
      rw [ho, map_cons, mem_cons, not_or]
      exact ⟨hd, hos⟩
  · intro a ha hin
    rw [hdesc]
    exact h.pending a (hsuf.subset ha) hin
  · intro z hz hmem
    rw [ho, mem_cons] at hmem
    rcases hmem with rfl | hmem
    · exact absurd hz hlast
    · exact hmem

theorem DiffInv.passBoth (h : DiffInv sch isCtx old new s attrs) (hnd : (s.old.map (·.desc)).Nodup)
    (ho : s.old = o :: os) (hn : s.new = n :: ns) (hdesc : o.desc = n.desc)
    (hg : Gives sch.toModSchema attrs mods' n.desc (some n.vals)) :
    ∃ attrs', DiffInv sch isCtx old new ⟨os, ns, s.mods ++ mods', ns.map replaceMod⟩ attrs' := by
  have hnodup := h.newNodup
  rw [hn, map_cons, nodup_cons] at hnodup
  rw [ho, map_cons, nodup_cons] at hnd
  have hsuf : os <:+ s.old := ho ▸ suffix_cons o os
  have hmem : ∀ a ∈ ns, a ∈ s.new := fun a ha => hn ▸ mem_cons_of_mem n ha
  have hold : n ∈ s.new := hn ▸ mem_cons_self
  refine h.next hg rfl rfl hsuf (hdesc ▸ hnd.1) hnodup.2 (fun a ha => h.newAttr a (hmem a ha)) ?_ ?_ ?_ ?_
  · intro d' _ hos hn'
    by_cases hd : d' = n.desc
    · exact .inl ⟨hd, (h.newAttr n hold).2.symm⟩
    · refine .inr ⟨hd, ?_, ?_⟩
      · rw [ho, map_cons, mem_cons, not_or]
        exact ⟨hdesc ▸ hd, hos⟩
      · rw [hn, map_cons, mem_cons, not_or]
        exact ⟨hd, hn'⟩
  · intro a ha hix hin
    exact h.seen a (hmem a ha) hix ((hsuf.map (·.desc)).subset hin)
  · intro a ha hin
    have hp := h.pending a (hsuf.subset ha) hin
    rw [hn, map_cons, mem_cons] at hp
    rcases hp with hp | hp
    · have hbad : o.desc ∈ os.map (·.desc) := hdesc.trans hp.symm ▸ List.mem_map_of_mem ha
      exact absurd hbad hnd.1
    · exact hp
  · intro z hz hmem'
    rw [ho, mem_cons] at hmem'
    rcases hmem' with rfl | hmem'
    · exact absurd (hdesc ▸ h.mem_new hold) hz.lacks
    · exact hmem'

omit [DecidableEq ν] in
theorem attrSet_seen_mods (attrs : List (Attr δ ν)) (d : δ) :
    (attrSet attrs d markSeen).map replaceMod = attrs.map replaceMod := by
  induction attrs with
  | nil => rfl
  | cons a attrs ih =>
    unfold attrSet
    by_cases ha : a.desc = d
    · rw [if_pos ha, map_cons, map_cons]
      rfl
    · rw [if_neg ha, map_cons, map_cons, ih]

omit [DecidableEq ν] in
theorem mem_attrSet_seen {attrs : List (Attr δ ν)} {d : δ} {a : Attr δ ν} (h : a ∈ attrSet attrs d markSeen) :
    a ∈ attrs ∨ ∃ b ∈ attrs, b.desc = d ∧ a = markSeen b := by
  induction attrs with
  | nil => cases h
  | cons b attrs ih =>
    unfold attrSet at h
    by_cases hb : b.desc = d
    · rw [if_pos hb, mem_cons] at h
      rcases h with rfl | h
      · exact .inr ⟨b, mem_cons_self, hb, rfl⟩
      · exact .inl (mem_cons_of_mem b h)
    · rw [if_neg hb, mem_cons] at h
      rcases h with rfl | h
      · exact .inl mem_cons_self
      · rcases ih h with h | ⟨c, hc, hcd, rfl⟩
        · exact .inl (mem_cons_of_mem b h)
        · exact .inr ⟨c, mem_cons_of_mem b hc, hcd, rfl⟩

theorem diffStep_cases {mods : List (Modification δ ν)} (ho : o.vals ≠ []) (hn : n.vals ≠ []) :
    ∃ s', diffStep sch isCtx ⟨o :: os, n :: ns, mods, (n :: ns).map replaceMod⟩ = some s' ∧
      Round sch isCtx o os n ns mods s' := by
  unfold diffStep
  dsimp only
  rw [map_cons]
  by_cases hix : n.ixadd = true
  · rw [if_pos hix, attrCmp_none]
    exact ⟨_, rfl, .take (.inl hix)⟩
  rw [if_neg hix]
  by_cases hctx : isCtx = true ∧ o.desc = sch.contextCSN
  · rw [if_pos hctx]
    exact ⟨_, rfl, .pass hctx⟩
  rw [if_neg hctx]
  by_cases hdesc : o.desc = n.desc
  · rw [if_neg (not_not.mpr hdesc)]
    split
    · rw [attrCmp_none]
      exact ⟨_, rfl, .replace hdesc⟩
    · obtain ⟨mods', hcmp, hcases⟩ := @attrCmp_cases _ _ _ _ sch o n mods (ns.map replaceMod) ho hn
      rw [hcmp]
      rcases hcases with rfl | ⟨dels, adds, last, hmatch, rfl, hlt, hrule⟩
      · exact ⟨_, rfl, .replace hdesc⟩
      · exact ⟨_, rfl, .compare hdesc hmatch hlt hrule⟩
  rw [if_pos hdesc]
  by_cases hin : (attrFind (n :: ns) o.desc).isSome
  · rw [if_pos hin]
    refine ⟨_, rfl, .mark ?_⟩
    by_contra hout
    rw [attrFind_none.mpr hout] at hin
    cases hin
  rw [if_neg hin]
  by_cases hnone : (attrFind (o :: os) n.desc).isNone
  · rw [if_pos hnone, attrCmp_none]
    exact ⟨_, rfl, .take (.inr (attrFind_none.mp (by simpa using hnone)))⟩
  · rw [if_neg hnone]
    have hmem : n.desc ∈ (o :: os).map (·.desc) := by
      by_contra hout
      exact hnone (Option.isNone_iff_eq_none.mpr (attrFind_none.mpr hout))
    exact ⟨_, rfl, .delete (attrFind_none.mp (by simpa using hin)) ((List.mem_cons.mp hmem).resolve_left (Ne.symm hdesc))⟩

theorem DiffInv.step {mods ml : List (Modification δ ν)} (h : DiffInv sch isCtx old new ⟨o :: os, n :: ns, mods, ml⟩ attrs)
    (hO : EntryOk sch.toModSchema old) :
    ∃ s' attrs', diffStep sch isCtx ⟨o :: os, n :: ns, mods, ml⟩ = some s' ∧ DiffInv sch isCtx old new s' attrs' ∧
      s'.old.length + s'.new.length < (o :: os).length + (n :: ns).length := by
  have hnd : ((o :: os).map (·.desc)).Nodup := hO.nodup.sublist (h.suffix.sublist.map _)
  have hoOk : AttrOk sch.toModSchema o := hO.attr o (h.suffix.subset mem_cons_self)
  have hnOk : AttrOk sch.toModSchema n := (h.newAttr n mem_cons_self).1
  have hsame : ∀ a ∈ n :: ns, a.ixadd = true → a.desc ∉ os.map (·.desc) := by
    intro a ha hix hin
    exact h.seen a ha hix (mem_cons_of_mem o.desc hin)
  have hlast : o.desc ∈ (n :: ns).map (·.desc) → ¬ LacksLast sch isCtx old new o := by
    intro hin hz
    obtain ⟨a, ha, hao⟩ := List.mem_map.mp hin
    exact hz.lacks (hao ▸ h.mem_new ha)
  obtain rfl : ml = (n :: ns).map replaceMod := h.ml
  obtain ⟨s', hstep, hround⟩ := @diffStep_cases _ _ _ _ sch isCtx o n os ns mods hoOk.vals hnOk.vals
  rw [hstep]
  cases hround with
  | take htake =>
    have hout : n.desc ∉ (o :: os).map (·.desc) := htake.elim (h.seen n mem_cons_self) id
    obtain ⟨attrs', h'⟩ := h.take rfl hout
    exact ⟨_, attrs', rfl, h', by simp only [length_cons]; omega⟩
  | pass hctx =>
    obtain ⟨attrs', h'⟩ := h.passOld hnd rfl (gives_nil h.nodup o.desc) rfl rfl h.newAttr hsame
      (fun hne => absurd hctx hne) (fun hz => hz.counts hctx)
    rw [List.append_nil] at h'
    exact ⟨_, attrs', rfl, h', by simp only [length_cons]; omega⟩
  | mark hmem =>
    have hdescs : (attrSet (n :: ns) o.desc markSeen).map (·.desc) = (n :: ns).map (·.desc) := attrSet_descs fun _ => rfl
    have hattr : ∀ a ∈ attrSet (n :: ns) o.desc markSeen,
        AttrOk sch.toModSchema a ∧ (attrFind new a.desc).map (·.vals) = some a.vals := by
      intro a ha
      rcases mem_attrSet_seen ha with ha | ⟨b, hb, -, rfl⟩
      · exact h.newAttr a ha
      · exact ⟨(h.newAttr b hb).1.seen, (h.newAttr b hb).2⟩
    have hseen : ∀ a ∈ attrSet (n :: ns) o.desc markSeen, a.ixadd = true → a.desc ∉ os.map (·.desc) := by
      intro a ha hix'
      rcases mem_attrSet_seen ha with ha | ⟨b, -, hb, rfl⟩
      · exact hsame a ha hix'
      · have hb' : (markSeen b).desc = o.desc := hb
        rw [hb']
        exact (List.nodup_cons.mp hnd).1
    have hlen : (attrSet (n :: ns) o.desc markSeen).length = (n :: ns).length := by
      simpa using congrArg List.length hdescs
    obtain ⟨attrs', h'⟩ := h.passOld hnd rfl (gives_nil h.nodup o.desc) hdescs
      (attrSet_seen_mods (n :: ns) o.desc) hattr hseen (fun _ hout => absurd hmem hout) (hlast hmem)
    rw [List.append_nil] at h'
    exact ⟨_, attrs', rfl, h', by simp only [hlen, length_cons]; omega⟩
  | delete hout hin =>
    have hlacks : o.desc ∉ new.map (·.desc) := fun hmem => hout (h.pending o mem_cons_self hmem)
    have hbehind : ¬ LacksLast sch isCtx old new o := by
      intro hz
      obtain ⟨b, hb, hbd⟩ := List.mem_map.mp hin
      have hb' := (hz.behind os h.suffix b hb).2.2
      rw [hbd, attrFind_none] at hb'
      exact hb' (h.mem_new mem_cons_self)
    obtain ⟨attrs', h'⟩ := h.passOld hnd rfl (gives_delete h.nodup (h.ahead o mem_cons_self)) rfl rfl h.newAttr hsame
      (fun _ _ => by rw [attrFind_none.mpr hlacks]; rfl) hbehind
    exact ⟨_, attrs', rfl, h', by simp only [length_cons]; omega⟩
  | replace hdesc =>
    obtain ⟨attrs', h'⟩ := h.passBoth hnd rfl rfl hdesc (gives_replaceMod h.nodup n)
    exact ⟨_, attrs', rfl, h', by simp only [length_cons]; omega⟩
  | compare hdesc hmatch hlt hrule =>
    obtain ⟨attrs', h'⟩ := h.passBoth hnd rfl rfl hdesc
      (compare_gives h.nodup (h.ahead o mem_cons_self) hoOk hnOk hdesc hmatch hlt hrule)
    exact ⟨_, attrs', rfl, h', by simp only [length_cons]; omega⟩

theorem diffLoop_inv (hO : EntryOk sch.toModSchema old) (k : Nat) (hk : s.old.length + s.new.length ≤ k)
    (h : DiffInv sch isCtx old new s attrs) :
    ∃ s' attrs', diffLoop sch isCtx k s = some s' ∧ DiffInv sch isCtx old new s' attrs' ∧ (s'.old = [] ∨ s'.new = []) := by
  induction k generalizing s attrs with
  | zero => exact ⟨s, attrs, rfl, h, .inl (eq_nil_of_length_eq_zero (by omega))⟩
  | succ k ih =>
    unfold diffLoop
    by_cases hend : s.old = [] ∨ s.new = []
    · rw [if_pos hend]
      exact ⟨s, attrs, rfl, h, hend⟩
    · rw [if_neg hend]
      obtain ⟨_ | ⟨o, os⟩, _ | ⟨n, ns⟩, mods, ml⟩ := s
      · exact absurd (.inl rfl) hend
      · exact absurd (.inl rfl) hend
      · exact absurd (.inr rfl) hend
      · obtain ⟨s', attrs', hstep, h', hlt⟩ := h.step hO
        rw [hstep, bind_some]
        exact ih (by dsimp only at hk; omega) h'

theorem diffInv_start (hO : EntryOk sch.toModSchema old) (hN : EntryOk sch.toModSchema new)
    (hfresh : ∀ a ∈ new, a.ixadd = false) : DiffInv sch isCtx old new ⟨old, new, [], new.map replaceMod⟩ old := by
  refine ⟨rfl, hO.nodup, rfl, suffix_refl _, fun a ha => attrFind_of_mem hO.nodup ha, hN.nodup, ?_, ?_, ?_,
    fun a _ hin => hin, fun z hz => hz.mem⟩
  · intro a ha
    rw [attrFind_of_mem hN.nodup ha]
    exact ⟨hN.attr a ha, rfl⟩
  · intro d _ ho hn
    unfold SameValues
    rw [attrFind_none.mpr ho, attrFind_none.mpr hn]
    exact .none
  · intro a ha hix
    rw [hfresh a ha] at hix
    cases hix

theorem applyMods_replace (sch : ModSchema δ ν) (hn : (attrs.map (·.desc)).Nodup) {news : List (Attr δ ν)}
    (hnd : (news.map (·.desc)).Nodup) :
    ∃ attrs', applyMods sch attrs (news.map replaceMod) = .ok attrs' ∧
      (∀ d, d ∉ news.map (·.desc) → attrFind attrs' d = attrFind attrs d) ∧
      ∀ a ∈ news, Option.Rel List.Perm ((attrFind attrs' a.desc).map (·.vals)) (some a.vals) := by
  induction news generalizing attrs with
  | nil => exact ⟨attrs, rfl, fun _ _ => rfl, fun _ ha => absurd ha not_mem_nil⟩
  | cons n news ih =>
    obtain ⟨hout, hnd⟩ := List.nodup_cons.mp hnd
    obtain ⟨attrs', b, happ, hs, hb⟩ := @gives_replaceMod _ _ _ _ sch _ hn n
    obtain ⟨attrs'', happ', hframe, hvals⟩ := ih hs.nodup hnd
    refine ⟨attrs'', (applyMods_append happ).trans happ', ?_, ?_⟩
    · intro d hd
      rw [map_cons, mem_cons, not_or] at hd
      exact (hframe d hd.2).trans (hs.frame d hd.1)
    · intro a ha
      rcases List.mem_cons.mp ha with rfl | ha
      · rw [hframe a.desc hout, hs.found]
        exact hb
      · exact hvals a ha

theorem diffRight_of_end (h : DiffInv sch isCtx old new s attrs) (hend : s.old = [] ∨ s.new = []) :
    ∃ attrs', applyMods sch.toModSchema old (s.mods ++ s.ml) = .ok attrs' ∧
      ((∀ d, ¬ (isCtx = true ∧ d = sch.contextCSN) → SameValues attrs' new d) ↔
        ∀ a ∈ s.old, isCtx = true ∧ a.desc = sch.contextCSN) := by
  obtain ⟨attrs', happ, hframe, hvals⟩ := applyMods_replace sch.toModSchema h.nodup h.newNodup
  refine ⟨attrs', by rw [applyMods_append h.run, h.ml, happ], ?_, ?_⟩
  · intro hsame a ha
    have hnew : s.new = [] := hend.resolve_left (ne_nil_of_mem ha)
    have hlacks : a.desc ∉ new.map (·.desc) := by
      intro hin
      have := h.pending a ha hin
      rw [hnew] at this
      cases this
    by_contra hctx
    have hs := hsame a.desc hctx
    unfold SameValues at hs
    rw [hframe a.desc (by rw [hnew]; exact not_mem_nil), h.ahead a ha, attrFind_none.mpr hlacks] at hs
    cases hs
  · intro hall d hctx
    by_cases hd : d ∈ s.new.map (·.desc)
    · obtain ⟨a, ha, rfl⟩ := List.mem_map.mp hd
      unfold SameValues
      rw [(h.newAttr a ha).2]
      exact hvals a ha
    · have hd' : d ∉ s.old.map (·.desc) := by
        intro hin
        obtain ⟨a, ha, rfl⟩ := List.mem_map.mp hin
        exact hctx (hall a ha)
      unfold SameValues
      rw [hframe d hd]
      exact h.settled d hctx hd' hd

theorem left_iff_keepsLast (h : DiffInv sch isCtx old new s attrs) (hO : EntryOk sch.toModSchema old)
    (hend : s.old = [] ∨ s.new = []) :
    (∀ a ∈ s.old, isCtx = true ∧ a.desc = sch.contextCSN) ↔ KeepsLast sch isCtx old new := by
  have hlacks : ∀ a ∈ s.old, a.desc ∉ new.map (·.desc) := by
    intro a ha hin
    have hp := h.pending a ha hin
    rw [hend.resolve_left (ne_nil_of_mem ha)] at hp
    cases hp
  constructor
  · intro hall z hz
    by_contra hnone
    have hout : attrFind new z.desc = none := by simpa using hnone
    obtain ⟨hmem, hcounts⟩ := List.mem_filter.mp (List.mem_of_getLast? hz)
    have hctx : ¬ (isCtx = true ∧ z.desc = sch.contextCSN) := by
      intro hctx
      exact of_decide_eq_true hcounts ⟨hctx.1, hctx.2, hout⟩
    refine hctx (hall z (h.stays z ⟨hmem, attrFind_none.mp hout, hctx, ?_⟩))
    intro olds hsuf a ha
    by_contra hpass
    obtain ⟨pre, rfl⟩ := hsuf
    have hin : a ∈ olds.filter fun a => ¬ Passed sch isCtx new a := List.mem_filter.mpr ⟨ha, decide_eq_true hpass⟩
    obtain ⟨y, hy⟩ : ∃ y, (olds.filter fun a => ¬ Passed sch isCtx new a).getLast? = some y :=
      ⟨_, List.getLast?_eq_some_getLast (ne_nil_of_mem hin)⟩
    rw [append_cons, filter_append, List.getLast?_append, hy, some_or] at hz
    have hyz : y = z := Option.some.inj hz
    have hyold := (List.mem_filter.mp (List.mem_of_getLast? hy)).1
    have hnd := hO.nodup
    rw [map_append, map_cons, nodup_append, nodup_cons] at hnd
    exact hnd.2.1.1 (List.mem_map_of_mem (hyz ▸ hyold))
  · intro hkeep a ha
    by_contra hctx
    have hpass : ¬ Passed sch isCtx new a := fun hp => hctx ⟨hp.1, hp.2.1⟩
    obtain ⟨pre, hpre⟩ := h.suffix
    have hin : a ∈ s.old.filter fun a => ¬ Passed sch isCtx new a := List.mem_filter.mpr ⟨ha, decide_eq_true hpass⟩
    obtain ⟨z, hz⟩ : ∃ z, (s.old.filter fun a => ¬ Passed sch isCtx new a).getLast? = some z :=
      ⟨_, List.getLast?_eq_some_getLast (ne_nil_of_mem hin)⟩
    have hz' : (old.filter fun a => ¬ Passed sch isCtx new a).getLast? = some z := by
      rw [← hpre, filter_append, List.getLast?_append, hz]
      rfl
    have hzold := (List.mem_filter.mp (List.mem_of_getLast? hz)).1
    have hsome := hkeep z hz'
    rw [attrFind_none.mpr (hlacks z hzold)] at hsome
    cases hsome

theorem diffRight_iff_left (hloop : diffLoop sch isCtx (old.length + new.length) ⟨old, new, [], new.map replaceMod⟩ = some s)
    (h : DiffInv sch isCtx old new s attrs) (hend : s.old = [] ∨ s.new = []) :
    DiffRight sch isCtx old new ↔ ∀ a ∈ s.old, isCtx = true ∧ a.desc = sch.contextCSN := by
  obtain ⟨attrs', happ, hiff⟩ := diffRight_of_end h hend
  have hmods : syncreplDiffEntry sch isCtx old new (new.map replaceMod) = some (s.mods ++ s.ml) := by
    unfold syncreplDiffEntry
    rw [hloop, map_some]
  rw [← hiff]
  constructor
  · rintro ⟨mods, attrs'', hm, ha, hsame⟩
    obtain rfl := Option.some.inj (hmods.symm.trans hm)
    obtain rfl := Except.ok.inj (happ.symm.trans ha)
    exact hsame
  · intro hsame
    exact ⟨s.mods ++ s.ml, attrs', hmods, happ, hsame⟩

/-- The modifications of `syncrepl_diff_entry` give the new entry exactly if it has the last old attribute: what is left
of the old entry when the new one ends is not deleted. -/
theorem syncrepl_diff_entry_right_iff (sch : DiffSchema δ ν) (isCtx : Bool) (old new : List (Attr δ ν))
    (hO : EntryOk sch.toModSchema old) (hN : EntryOk sch.toModSchema new) (hfresh : ∀ a ∈ new, a.ixadd = false) :
    DiffRight sch isCtx old new ↔ KeepsLast sch isCtx old new := by
  obtain ⟨s, attrs, hloop, h, hend⟩ := diffLoop_inv hO (old.length + new.length) le_rfl (diffInv_start hO hN hfresh)
  exact (diffRight_iff_left hloop h hend).trans (left_iff_keepsLast h hO hend)

end Rounds

def octetStringMatch : EqualityRule String := ⟨none, compare, fun _ => Std.ReflCmp.compare_self⟩

def plainSchema : DiffSchema String String where
  equality := fun _ => some octetStringMatch
  integer := fun _ => false
  righteous := true
  atol := fun _ => none
  ltoa := fun n => toString n
  objectClass := "objectClass"
  contextCSN := "contextCSN"
  modifiersName := "modifiersName"
  modifyTimestamp := "modifyTimestamp"

def singles (attrs : List (String × String)) : List (Attr String String) := attrs.map fun a => attrNew a.1 [a.2] none

theorem singles_ok {attrs : List (String × String)} (h : (attrs.map (·.1)).Nodup) :
    EntryOk plainSchema.toModSchema (singles attrs) := by
  refine ⟨by simpa [singles, attrNew, Function.comp_def] using h, ?_⟩
  intro a ha
  obtain ⟨a, -, rfl⟩ := List.mem_map.mp ha
  refine ⟨cons_ne_nil _ _, rfl, ?_, ?_⟩
  · intro mr hmr
    obtain rfl := Option.some.inj hmr
    rfl
  · intro mr hmr
    exact pairwise_singleton _ _

/-- The last attribute of the old entry is gone in the new one. -/
theorem syncrepl_diff_entry_leavesLast :
    EntryOk plainSchema.toModSchema (singles [("cn", "a"), ("sn", "b")]) ∧
      EntryOk plainSchema.toModSchema (singles [("cn", "a")]) ∧
      ¬ DiffRight plainSchema false (singles [("cn", "a"), ("sn", "b")]) (singles [("cn", "a")]) := by
  refine ⟨singles_ok (by decide), singles_ok (by decide), ?_⟩
  rintro ⟨mods, attrs, hm, ha, hsame⟩
  have hnone : syncreplDiffEntry plainSchema false (singles [("cn", "a"), ("sn", "b")]) (singles [("cn", "a")])
      ((singles [("cn", "a")]).map replaceMod) = some [] := by decide
  obtain rfl := Option.some.inj (hnone.symm.trans hm)
  obtain rfl := Except.ok.inj ha
  have hs := hsame "sn" (by decide)
  cases hs

theorem syncrepl_diff_entry_right_iff_first :
    DiffRight plainSchema false (singles [("sn", "b"), ("cn", "a")]) (singles [("cn", "c")]) ↔
      KeepsLast plainSchema false (singles [("sn", "b"), ("cn", "a")]) (singles [("cn", "c")]) :=
  syncrepl_diff_entry_right_iff plainSchema false _ _ (singles_ok (by decide)) (singles_ok (by decide)) (by decide)

end Sync
end ReOpenLDAP
