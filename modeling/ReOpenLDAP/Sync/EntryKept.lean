import ReOpenLDAP.Sync.RenameValues

/-!
# Sync.EntryKept

A modify keeps an entry well formed, if what it brings is.

* `ModKept`               — the values of a modification make such an attribute.
-/

namespace ReOpenLDAP
namespace Sync

open Slapd List

variable {δ ν : Type} [DecidableEq δ] [DecidableEq ν]

structure AttrKept (sch : ModSchema δ ν) (loose : List δ) (a : Attr δ ν) : Prop where
  ok : AttrOk sch a
  stored : a.desc ∉ loose → ∀ mr, sch.equality a.desc = some mr → a.nvals.isSome = mr.normalize.isSome

structure EntryKept (sch : ModSchema δ ν) (loose : List δ) (attrs : List (Attr δ ν)) : Prop where
  nodup : (attrs.map (·.desc)).Nodup
  attr : ∀ a ∈ attrs, AttrKept sch loose a

def ModKept (sch : ModSchema δ ν) (loose : List δ) (mod : Modification δ ν) : Prop :=
  mod.op = .delete ∨ (mod.op = .add ∨ mod.op = .softadd ∨ mod.op = .replace) ∧
    ∃ vs, mod.values = some vs ∧ AttrKept sch loose (attrNew mod.desc vs mod.nvalues)

section Attr

variable {sch : ModSchema δ ν} {loose : List δ} {mr : EqualityRule ν} {a a' b : Attr δ ν} {attrs : List (Attr δ ν)} {d : δ}
  {vs ws : List ν}

omit [DecidableEq δ] [DecidableEq ν] in
theorem EntryKept.ok (h : EntryKept sch loose attrs) : EntryOk sch attrs := ⟨h.nodup, fun a ha => (h.attr a ha).ok⟩

omit [DecidableEq ν] in
theorem EntryKept.stored (h : EntryKept sch loose attrs) (hd : d ∉ loose) : Stored sch attrs d := by
  intro a mr ha hr
  obtain ⟨hmem, rfl⟩ := attrFind_some ha
  exact (h.attr a hmem).stored hd mr hr

omit [DecidableEq δ] [DecidableEq ν] in
theorem attrOk_of_normal (hv : a.vals ≠ []) (hl : a.norms.length = a.vals.length)
    (h : ∀ mr, sch.equality a.desc = some mr → Normal mr a.vals ∧ a.norms = a.vals.map (nf mr)) : AttrOk sch a := by
  refine ⟨hv, hl, fun mr hr => ?_, fun mr hr => ?_⟩
  · obtain ⟨hn, hnorms⟩ := h mr hr
    rw [hnorms, List.map_map]
    exact map_congr_left hn.norm
  · obtain ⟨hn, hnorms⟩ := h mr hr
    rw [hnorms]
    exact hn.distinct

omit [DecidableEq δ] [DecidableEq ν] in
theorem norms_length_map (h : a.norms = a.vals.map (nf mr)) : a.norms.length = a.vals.length := by
  rw [h, length_map]

omit [DecidableEq δ] [DecidableEq ν] in
theorem Normal.append (hsymm : ∀ v w, mr.cmp v w = .eq → mr.cmp w v = .eq) (hv : Normal mr vs) (hw : Normal mr ws)
    (hnew : ∀ v ∈ vs, ∀ w ∈ ws, ¬ Matches mr v w) : Normal mr (vs ++ ws) := by
  refine ⟨fun v hmem => (List.mem_append.mp hmem).elim (hv.norm v) (hw.norm v), ?_⟩
  rw [map_append]
  refine List.pairwise_append.mpr ⟨hv.distinct, hw.distinct, fun s hs t ht => ?_⟩
  obtain ⟨v, hv', rfl⟩ := List.mem_map.mp hs
  obtain ⟨w, hw', rfl⟩ := List.mem_map.mp ht
  have hne := hnew v hv' w hw'
  exact ⟨hne, fun hm => hne (hsymm _ _ hm)⟩

omit [DecidableEq δ] [DecidableEq ν] in
theorem AttrKept.part (h : AttrKept sch loose a) (hdesc : a'.desc = a.desc) (hs : a'.vals ⊆ a.vals) (hn : a.vals.Nodup → a'.vals.Nodup)
    (hne : a'.vals ≠ []) (hl : a'.norms.length = a'.vals.length) (hsome : a'.nvals.isSome = a.nvals.isSome)
    (hnorms : ∀ f : ν → ν, a.norms = a.vals.map f → a'.norms = a'.vals.map f) : AttrKept sch loose a' := by
  refine ⟨attrOk_of_normal hne hl fun mr hr => ?_, fun hd mr hr => ?_⟩
  · obtain ⟨hnormal, hnf⟩ := h.ok.normal (hdesc ▸ hr)
    exact ⟨hnormal.of_subset hs (hn hnormal.nodup), hnorms _ hnf⟩
  · rw [hsome]
    exact h.stored (hdesc ▸ hd) mr (hdesc ▸ hr)

end Attr

section Drop

variable {α β : Type} {idx : List (Option Nat)}

theorem dropAt_map (f : α → β) (k : Nat) (xs : List α) : dropAt idx k (xs.map f) = (dropAt idx k xs).map f := by
  induction xs generalizing k with
  | nil => rfl
  | cons x xs ih =>
    rw [map_cons, dropAt, dropAt]
    split_ifs
    · exact ih (k + 1)
    · rw [map_cons, ih]

theorem dropAt_sublist (k : Nat) (xs : List α) : (dropAt idx k xs).Sublist xs := by
  induction xs generalizing k with
  | nil => exact List.Sublist.refl _
  | cons x xs ih =>
    rw [dropAt]
    split_ifs
    · exact (ih (k + 1)).cons x
    · exact (ih (k + 1)).cons_cons x

theorem dropAt_length {xs : List α} {ys : List β} (h : xs.length = ys.length) (k : Nat) :
    (dropAt idx k xs).length = (dropAt idx k ys).length := by
  induction xs generalizing ys k with
  | nil =>
    obtain rfl := eq_nil_of_length_eq_zero h.symm
    rfl
  | cons x xs ih =>
    cases ys with
    | nil => cases h
    | cons y ys =>
      rw [dropAt, dropAt]
      split_ifs
      · exact ih (Nat.succ.inj h) (k + 1)
      · exact congrArg (· + 1) (ih (Nat.succ.inj h) (k + 1))

end Drop

section Cell

variable {sch : ModSchema δ ν} {loose : List δ} {mr : EqualityRule ν} {a b : Attr δ ν} {x y : Option (Attr δ ν)}
  {mod : Modification δ ν} {mask : List Bool} {vs ws : List ν}

omit [DecidableEq δ] [DecidableEq ν] in
theorem dropped_kept {idx : List (Option Nat)} (h : AttrKept sch loose a) (hne : dropAt idx 0 a.vals ≠ []) :
    AttrKept sch loose { a with vals := dropAt idx 0 a.vals, nvals := a.nvals.map (dropAt idx 0) } := by
  have hnorms : Attr.norms { a with vals := dropAt idx 0 a.vals, nvals := a.nvals.map (dropAt idx 0) } = dropAt idx 0 a.norms := by
    unfold Attr.norms
    cases a.nvals <;> rfl
  refine h.part rfl (dropAt_sublist 0 a.vals).subset (fun hn => hn.sublist (dropAt_sublist 0 a.vals)) hne ?_ ?_ fun f hf => ?_
  · rw [hnorms]
    exact dropAt_length h.ok.length 0
  · cases a.nvals <;> rfl
  · rw [hnorms, hf, dropAt_map]

omit [DecidableEq δ] [DecidableEq ν] in
theorem checkNew_ok (h : checkNew mr a true false ws = .ok mask) :
    mask = ws.map (fun _ => true) ∧ ∀ w ∈ ws, ∀ s ∈ a.norms, mr.cmp s w ≠ .eq := by
  induction ws generalizing mask with
  | nil =>
    obtain rfl := Except.ok.inj h
    exact ⟨rfl, by simp⟩
  | cons w ws ih =>
    unfold checkNew at h
    unfold attrValfind at h
    rw [if_pos rfl] at h
    cases hfind : a.norms.findIdx? fun s => mr.cmp s w = .eq with
    | some i => simp [hfind] at h
    | none =>
      cases hrest : checkNew mr a true false ws with
      | error rc => simp [hfind, hrest, Except.map] at h
      | ok mask' =>
        obtain rfl : true :: mask' = mask := by simpa [hfind, hrest, Except.map] using h
        obtain ⟨rfl, hnew⟩ := ih hrest
        refine ⟨rfl, fun u hu => ?_⟩
        rcases List.mem_cons.mp hu with rfl | hu
        · simpa using List.findIdx?_eq_none_iff.mp hfind
        · exact hnew u hu

theorem attrMerge_found {vals : List ν} {nvals : Option (List ν)} {attrs' : List (Attr δ ν)}
    (h : attrMerge sch [a] a.desc vals nvals = .ok attrs') :
    ∃ c, attrFind attrs' a.desc = some c ∧ c.desc = a.desc ∧ c.vals = a.vals ++ vals ∧ c.norms = a.norms ++ nvals.getD vals ∧
      c.nvals.isSome = a.nvals.isSome := by
  have hfind : attrFind [a] a.desc = some a := (attrFind_cons a).trans (if_pos rfl)
  have hset : ∀ {f : Attr δ ν → Attr δ ν}, (f a).desc = a.desc → attrFind (attrSet [a] a.desc f) a.desc = some (f a) := by
    intro f hf
    rw [attrSet, if_pos rfl, attrFind_cons, if_pos hf]
  unfold attrMerge at h
  rw [hfind] at h
  dsimp only at h
  cases hnv : a.nvals with
  | none =>
    rw [hnv] at h
    -- in righteous mode the same values as normalized ones are none
    by_cases hsame : sch.righteous = true ∧ (none : Option (List ν)) = none ∧ nvals = some vals
    · rw [if_pos hsame] at h
      obtain rfl := Except.ok.inj h
      refine ⟨_, hset rfl, rfl, rfl, ?_, hnv ▸ rfl⟩
      simp [Attr.norms, hnv, hsame.2.2]
    · rw [if_neg hsame] at h
      cases nvals with
      | some ns => cases h
      | none =>
        obtain rfl := Except.ok.inj h
        exact ⟨_, hset rfl, rfl, rfl, by simp [Attr.norms, hnv], hnv ▸ rfl⟩
  | some ms =>
    rw [hnv, if_neg (by simp)] at h
    cases nvals with
    | none => cases h
    | some ns =>
      obtain rfl := Except.ok.inj h
      exact ⟨_, hset rfl, rfl, rfl, by simp [Attr.norms, hnv], rfl⟩

omit [DecidableEq δ] [DecidableEq ν] in
theorem appended_kept (hsymm : ∀ v w, mr.cmp v w = .eq → mr.cmp w v = .eq) (ha : AttrKept sch loose a) (hb : AttrKept sch loose b)
    (hdesc : b.desc = a.desc) (hr : sch.equality a.desc = some mr) (hnew : ∀ w ∈ b.norms, ∀ s ∈ a.norms, mr.cmp s w ≠ .eq)
    {c : Attr δ ν} (hc : c.desc = a.desc) (hv : c.vals = a.vals ++ b.vals) (hn : c.norms = a.norms ++ b.norms)
    (hsome : c.nvals.isSome = a.nvals.isSome) : AttrKept sch loose c := by
  obtain ⟨hna, hfa⟩ := ha.ok.normal hr
  obtain ⟨hnb, hfb⟩ := hb.ok.normal (hdesc ▸ hr)
  have hnorms : c.norms = c.vals.map (nf mr) := by rw [hn, hv, map_append, hfa, hfb]
  refine ⟨attrOk_of_normal (by simp [hv, ha.ok.vals]) (norms_length_map hnorms) fun mr' hr' => ?_, fun hd mr' hr' => ?_⟩
  · obtain rfl := Option.some.inj (hr.symm.trans (hc ▸ hr'))
    refine ⟨hv ▸ hna.append hsymm hnb fun v hv' w hw => ?_, hnorms⟩
    exact hnew _ (hfb ▸ List.mem_map_of_mem hw) _ (hfa ▸ List.mem_map_of_mem hv')
  · rw [hsome]
    exact ha.stored (hc ▸ hd) mr' (hc ▸ hr')

variable (hsymm : ∀ d mr, sch.equality d = some mr → ∀ v w, mr.cmp v w = .eq → mr.cmp w v = .eq)

include hsymm

theorem add_kept {attrs' : List (Attr δ ν)} (hx : ∀ a, x = some a → a.desc = mod.desc ∧ AttrKept sch loose a)
    (hvals : mod.values = some vs) (hb : AttrKept sch loose (attrNew mod.desc vs mod.nvalues))
    (h : modifyAddValues sch x.toList mod false = .ok attrs') :
    ∀ c, attrFind attrs' mod.desc = some c → AttrKept sch loose c := by
  intro c hc
  unfold modifyAddValues at h
  rw [hvals, Option.getD_some] at h
  cases x with
  | none =>
    obtain rfl := Except.ok.inj h
    have hfind : attrFind [attrNew mod.desc vs mod.nvalues] mod.desc = some (attrNew mod.desc vs mod.nvalues) :=
      (attrFind_cons _).trans (if_pos rfl)
    obtain rfl := Option.some.inj (hfind.symm.trans hc)
    exact hb
  | some a =>
    obtain ⟨hdesc, ha⟩ := hx a rfl
    have hfind : attrFind (some a).toList mod.desc = some a := (attrFind_cons a).trans (if_pos hdesc)
    rw [hfind] at h
    cases hr : sch.equality mod.desc with
    | none => simp [hr] at h
    | some mr =>
      have hnorm : checkNew mr a mod.nvalues.isSome false (mod.nvalues.getD vs) =
          checkNew mr a true false (attrNew mod.desc vs mod.nvalues).norms := by
        cases hnv : mod.nvalues with
        | some ns => rfl
        | none =>
          refine checkNew_norm ?_
          have hmap := hb.ok.norm mr hr
          rw [hnv] at hmap
          exact hmap
      cases hcheck : checkNew mr a mod.nvalues.isSome false (mod.nvalues.getD vs) with
      | error rc => simp [hr, hcheck] at h
      | ok mask =>
        obtain ⟨rfl, hnew⟩ := checkNew_ok (hnorm.symm.trans hcheck)
        have hmask : masked ((attrNew mod.desc vs mod.nvalues).norms.map fun _ => true) vs = vs :=
          masked_true hb.ok.length.ge
        have hmask' : mod.nvalues.map (masked ((attrNew mod.desc vs mod.nvalues).norms.map fun _ => true)) = mod.nvalues := by
          cases hnv : mod.nvalues with
          | none => rfl
          | some ns => exact congrArg some (masked_true le_rfl)
        simp only [hr, hcheck, hmask, hmask', Bool.false_eq_true, false_and, if_false] at h
        rw [← hdesc] at h hc
        obtain ⟨c', hc', hcd, hcv, hcn, hcs⟩ := attrMerge_found h
        obtain rfl := Option.some.inj (hc'.symm.trans hc)
        exact appended_kept (hsymm mod.desc mr hr) ha hb hdesc.symm (hdesc ▸ hr) hnew hcd hcv hcn hcs

omit hsymm [DecidableEq ν] in
theorem delete_kept {attrs' : List (Attr δ ν)} (hx : ∀ a, x = some a → a.desc = mod.desc ∧ AttrKept sch loose a)
    (h : modifyDeleteValues sch x.toList mod false = (none, attrs')) :
    ∀ c, attrFind attrs' mod.desc = some c → AttrKept sch loose c := by
  intro c hc
  have hgone : attrFind (attrDelete x.toList mod.desc) mod.desc = none :=
    attrFind_attrDelete_self (by cases x <;> simp)
  unfold modifyDeleteValues at h
  cases hvals : mod.values with
  | none =>
    rw [hvals] at h
    obtain ⟨-, rfl⟩ := Prod.mk.inj h
    rw [hgone] at hc
    cases hc
  | some vals =>
    rw [hvals] at h
    cases hr : sch.equality mod.desc with
    | none => simp [hr] at h
    | some mr =>
      cases x with
      | none => simp [hr, attrFind] at h
      | some a =>
        obtain ⟨hdesc, ha⟩ := hx a rfl
        have hfind : attrFind (some a).toList mod.desc = some a := (attrFind_cons a).trans (if_pos hdesc)
        rw [hfind] at h
        cases hloc : locate mr a mod.nvalues.isSome false (mod.nvalues.getD vals) with
        | error rc => simp [hr, hloc] at h
        | ok idx =>
          simp only [hr, hloc, Prod.mk.injEq] at h
          obtain ⟨-, rfl⟩ := h
          by_cases hnil : dropAt idx 0 a.vals = []
          · rw [if_pos hnil, hgone] at hc
            cases hc
          · have hset := @attrFind_attrSet _ _ _ (some a).toList mod.desc mod.desc
              (fun a => { a with vals := dropAt idx 0 a.vals, nvals := a.nvals.map (dropAt idx 0) }) fun _ => rfl
            rw [if_pos rfl, hfind] at hset
            rw [if_neg hnil, hset] at hc
            obtain rfl := Option.some.inj hc
            exact dropped_kept ha hnil

theorem cell_kept (hx : ∀ a, x = some a → a.desc = mod.desc ∧ AttrKept sch loose a) (hm : ModKept sch loose mod)
    (h : cell sch x mod = .ok y) : ∀ c, y = some c → AttrKept sch loose c := by
  rintro c rfl
  cases hone : modifyOne sch x.toList mod with
  | error rc =>
    rw [cell, hone] at h
    cases h
  | ok attrs' =>
    rw [cell, hone] at h
    have hc : attrFind attrs' mod.desc = some c := Except.ok.inj h
    unfold modifyOne applyMod at hone
    rcases hm with hop | ⟨hop | hop | hop, vs, hvals, hb⟩ <;> rw [hop] at hone <;> dsimp only at hone
    · cases hdel : modifyDeleteValues sch x.toList mod false with
      | mk rc attrs =>
        cases rc with
        | some rc => simp [hdel] at hone
        | none =>
          rw [hdel] at hone
          obtain rfl := Except.ok.inj hone
          exact delete_kept hx hdel c hc
    · exact add_kept hsymm hx hvals hb hone c hc
    · cases hadd : modifyAddValues sch x.toList mod false with
      | ok attrs =>
        rw [hadd] at hone
        obtain rfl := Except.ok.inj hone
        exact add_kept hsymm hx hvals hb hadd c hc
      | error rc =>
        rw [hadd] at hone
        -- what exists is left as it is
        cases rc with
        | typeOrValueExists =>
          obtain rfl := Except.ok.inj hone
          cases x with
          | none => cases hc
          | some a =>
            obtain ⟨hdesc, ha⟩ := hx a rfl
            obtain rfl := Option.some.inj (((attrFind_cons a).trans (if_pos hdesc)).symm.trans hc)
            exact ha
        | _ => cases hone
    · obtain ⟨attrs, hrep, hs⟩ := @modifyReplaceValues_sets _ _ _ _ sch x.toList (by cases x <;> simp) false mod vs hvals
      obtain rfl := Except.ok.inj (hrep.symm.trans hone)
      obtain rfl := Option.some.inj (hs.found.symm.trans hc)
      exact hb

end Cell

/-! ## All modifications -/

section Run

variable {sch : ModSchema δ ν} {loose : List δ} {attrs attrs' : List (Attr δ ν)} {mod : Modification δ ν}
  {mods : List (Modification δ ν)}
  (hsymm : ∀ d mr, sch.equality d = some mr → ∀ v w, mr.cmp v w = .eq → mr.cmp w v = .eq)

include hsymm

theorem modifyOne_kept (h : EntryKept sch loose attrs) (hm : ModKept sch loose mod) (hrun : modifyOne sch attrs mod = .ok attrs') :
    EntryKept sch loose attrs' := by
  obtain ⟨hcell, hs⟩ := modifyOne_ok h.nodup hrun
  have hx : ∀ a, attrFind attrs mod.desc = some a → a.desc = mod.desc ∧ AttrKept sch loose a := fun a ha =>
    ⟨(attrFind_some ha).2, h.attr a (attrFind_some ha).1⟩
  refine ⟨hs.nodup, fun c hc => ?_⟩
  have hfind := attrFind_of_mem hs.nodup hc
  by_cases hd : c.desc = mod.desc
  · exact cell_kept hsymm hx hm hcell c (hd ▸ hfind)
  · rw [hs.frame c.desc hd] at hfind
    exact h.attr c (attrFind_some hfind).1

theorem modifyInternal_kept (h : EntryKept sch loose attrs) (hm : ∀ mod ∈ mods, ModKept sch loose mod)
    (hrun : modifyInternal sch attrs mods = .ok attrs') : EntryKept sch loose attrs' := by
  induction mods generalizing attrs with
  | nil =>
    obtain rfl := Except.ok.inj hrun
    exact h
  | cons mod mods ih =>
    rw [modifyInternal, foldlM_cons] at hrun
    cases hone : modifyOne sch attrs mod with
    | error rc =>
      rw [hone] at hrun
      cases hrun
    | ok attrs₁ =>
      rw [hone] at hrun
      have h₁ := modifyOne_kept hsymm h (hm mod mem_cons_self) hone
      exact ih h₁ (fun m hm' => hm m (mem_cons_of_mem mod hm')) hrun

end Run

end Sync
end ReOpenLDAP
