import ReOpenLDAP.Sync.DiffEntry

/-!
# Sync.DiffShape

The modifications that `syncrepl_diff_entry` leaves for one attribute.
-/

namespace ReOpenLDAP
namespace Sync

open Slapd List

variable {δ ν : Type} [DecidableEq δ] [DecidableEq ν]

omit [DecidableEq δ] in
theorem findMatch_none {v : ν} {k : Nat} {p : ν → Bool} {news : List ν} (h : ∀ w ∈ news, p w = true → v ≠ w) :
    findMatch v k (news.map p) news = none := by
  induction news generalizing k with
  | nil => rfl
  | cons w news ih =>
    rw [map_cons, findMatch, if_neg fun hw => h w mem_cons_self hw.1 hw.2]
    exact ih fun u hu => h u (mem_cons_of_mem w hu)

omit [DecidableEq δ] in
theorem findMatch_at {v : ν} {k : Nat} {p : ν → Bool} {news : List ν} (hn : news.Nodup) (hv : v ∈ news) (hp : p v = true) :
    ∃ j, findMatch v k (news.map p) news = some (k + j) ∧ (news.map p).set j false = news.map fun w => p w && decide (w ≠ v) := by
  induction news generalizing k with
  | nil => cases hv
  | cons w news ih =>
    obtain ⟨hw, hn⟩ := List.nodup_cons.mp hn
    rw [map_cons, findMatch]
    by_cases heq : v = w
    · subst heq
      refine ⟨0, if_pos ⟨hp, rfl⟩, ?_⟩
      rw [set_cons_zero, map_cons]
      refine List.cons_eq_cons.mpr ⟨by simp, map_congr_left fun u hu => ?_⟩
      have hne : u ≠ v := fun h => hw (h ▸ hu)
      simp [hne]
    · obtain ⟨j, hj, hset⟩ := @ih (k + 1) hn ((List.mem_cons.mp hv).resolve_left heq)
      refine ⟨j + 1, ?_, ?_⟩
      · rw [if_neg fun h => heq h.2, hj]
        congr 1
        omega
      · rw [set_cons_succ, hset, map_cons]
        simp [Ne.symm heq]

omit [DecidableEq δ] in
theorem matchValues_exact {news olds : List ν} (hn : news.Nodup) (ho : olds.Nodup) (p : ν → Bool) (hp : ∀ v ∈ olds, p v = true)
    (j : Nat) :
    (matchValues news olds (news.map p) j).1 = olds.map (fun v => decide (v ∉ news)) ∧
      (matchValues news olds (news.map p) j).2.1 = news.map fun w => p w && decide (w ∉ olds) := by
  induction olds generalizing p j with
  | nil => simp [matchValues]
  | cons v olds ih =>
    obtain ⟨hv, ho⟩ := List.nodup_cons.mp ho
    rw [matchValues]
    by_cases hmem : v ∈ news
    · obtain ⟨i, hfind, hset⟩ := @findMatch_at _ _ v 0 p news hn hmem (hp v mem_cons_self)
      rw [Nat.zero_add] at hfind
      obtain ⟨hdels, hadds⟩ := ih ho (fun w => p w && decide (w ≠ v)) (fun u hu => by
        have hne : u ≠ v := fun h => hv (h ▸ hu)
        simp [hp u (mem_cons_of_mem v hu), hne]) i
      rw [hfind]
      dsimp only
      rw [hset, hdels, hadds]
      refine ⟨by simp [hmem], map_congr_left fun w _ => ?_⟩
      by_cases hwv : w = v <;> simp [hwv]
    · have hfind : findMatch v 0 (news.map p) news = none := findMatch_none fun w hw _ h => hmem (h ▸ hw)
      obtain ⟨hdels, hadds⟩ := ih ho p (fun u hu => hp u (mem_cons_of_mem v hu)) news.length
      rw [hfind]
      dsimp only
      rw [hdels, hadds]
      refine ⟨by simp [hmem], map_congr_left fun w hw => ?_⟩
      have hne : w ≠ v := fun h => hmem (h ▸ hw)
      simp [hne]

/-! ## The modifications of one description -/

structure IsNew (sch : ModSchema δ ν) (new : List (Attr δ ν)) (n : Attr δ ν) : Prop where
  attr : AttrOk sch n
  vals : (attrFind new n.desc).map (·.vals) = some n.vals

inductive Shape (sch : DiffSchema δ ν) (old new : List (Attr δ ν)) (d : δ) : List (Modification δ ν) → Prop
  | left (h : attrFind new d = none) : Shape sch old new d []
  | delete {o : Attr δ ν} (ho : attrFind old d = some o) (h : attrFind new d = none) :
      Shape sch old new d [⟨.delete, d, none, none⟩]
  | replace {n : Attr δ ν} (hd : n.desc = d) (hn : IsNew sch.toModSchema new n) : Shape sch old new d [replaceMod n]
  | compare {o n : Attr δ ν} {dels adds : List Bool} {last : Nat} (ho : attrFind old d = some o) (hd : n.desc = d)
      (hn : IsNew sch.toModSchema new n)
      (hmatch : matchValues n.vals o.vals (List.replicate n.vals.length true) 0 = (dels, adds, last))
      (hlt : dels.count true < o.vals.length) (hrule : sch.equality d = none → dels.count true = 0 ∧ adds.count true = 0) :
      Shape sch old new d (delMods o dels ++ addMods o n adds)

section Filter

variable {sch : DiffSchema δ ν} {isCtx : Bool} {old new attrs : List (Attr δ ν)} {s s' : DiffState δ ν}
  {o n : Attr δ ν} {os ns : List (Attr δ ν)} {d : δ}

/-- The modifications of `d`. -/
def modsOf (mods : List (Modification δ ν)) (d : δ) : List (Modification δ ν) := mods.filter (·.desc = d)

omit [DecidableEq ν] in
theorem modsOf_append (mods mods' : List (Modification δ ν)) (d : δ) :
    modsOf (mods ++ mods') d = modsOf mods d ++ modsOf mods' d :=
  filter_append mods mods'

omit [DecidableEq ν] in
theorem modsOf_cons (mod : Modification δ ν) (mods : List (Modification δ ν)) (d : δ) :
    modsOf (mod :: mods) d = if mod.desc = d then mod :: modsOf mods d else modsOf mods d := by
  unfold modsOf
  rw [filter_cons]
  by_cases h : mod.desc = d <;> simp [h]

omit [DecidableEq ν] in
theorem modsOf_same {mods : List (Modification δ ν)} (h : ∀ mod ∈ mods, mod.desc = d) : modsOf mods d = mods :=
  List.filter_eq_self.mpr fun mod hmod => decide_eq_true (h mod hmod)

omit [DecidableEq ν] in
theorem modsOf_other {mods : List (Modification δ ν)} (h : ∀ mod ∈ mods, mod.desc ≠ d) : modsOf mods d = [] :=
  List.filter_eq_nil_iff.mpr fun mod hmod => by simpa using h mod hmod

omit [DecidableEq ν] in
theorem modsOf_replace (hn : (ns.map (·.desc)).Nodup) (hmem : n ∈ ns) : modsOf (ns.map replaceMod) n.desc = [replaceMod n] := by
  induction ns with
  | nil => cases hmem
  | cons a ns ih =>
    obtain ⟨ha, hn⟩ := List.nodup_cons.mp hn
    rw [map_cons, modsOf_cons]
    rcases List.mem_cons.mp hmem with rfl | hmem
    · have hrest : modsOf (ns.map replaceMod) n.desc = [] := modsOf_other fun mod hmod heq => by
        obtain ⟨b, hb, rfl⟩ := List.mem_map.mp hmod
        exact ha (List.mem_map.mpr ⟨b, hb, heq⟩)
      rw [if_pos (show (replaceMod n).desc = n.desc from rfl), hrest]
    · have hne : (replaceMod a).desc ≠ n.desc := fun heq => ha (List.mem_map.mpr ⟨n, hmem, heq.symm⟩)
      rw [if_neg hne]
      exact ih hn hmem

omit [DecidableEq δ] [DecidableEq ν] in
theorem compared_desc {dels adds : List Bool} (hdesc : o.desc = n.desc) :
    ∀ mod ∈ delMods o dels ++ addMods o n adds, mod.desc = n.desc := by
  intro mod hmod
  unfold delMods addMods at hmod
  rcases List.mem_append.mp hmod with h | h <;> split at h
  · rw [List.mem_singleton.mp h]
    exact hdesc
  · cases h
  · rw [List.mem_singleton.mp h]
    exact hdesc
  · cases h

/-- The modifications of an attribute are there once it is passed in both entries, and not before. -/
structure Shapes (sch : DiffSchema δ ν) (old new : List (Attr δ ν)) (s : DiffState δ ν) : Prop where
  ahead : ∀ d, d ∈ s.old.map (·.desc) ∨ d ∈ s.new.map (·.desc) → modsOf s.mods d = []
  passed : ∀ d, d ∉ s.old.map (·.desc) → d ∉ s.new.map (·.desc) → Shape sch old new d (modsOf s.mods d)

theorem Shapes.next (h : Shapes sch old new s) {mods' : List (Modification δ ν)} (hmods : s'.mods = s.mods ++ mods')
    (hdesc : ∀ mod ∈ mods', mod.desc = d) (hahead : ∀ d', d' ∈ s'.old.map (·.desc) ∨ d' ∈ s'.new.map (·.desc) →
      (d' ≠ d ∨ mods' = []) ∧ (d' ∈ s.old.map (·.desc) ∨ d' ∈ s.new.map (·.desc)))
    (hin : d ∈ s.old.map (·.desc) ∨ d ∈ s.new.map (·.desc))
    (hother : ∀ d', d' ≠ d → d' ∉ s'.old.map (·.desc) → d' ∉ s'.new.map (·.desc) → d' ∉ s.old.map (·.desc) ∧
      d' ∉ s.new.map (·.desc))
    (hshape : d ∉ s'.old.map (·.desc) → d ∉ s'.new.map (·.desc) → Shape sch old new d mods') : Shapes sch old new s' := by
  have hsame : modsOf mods' d = mods' := modsOf_same hdesc
  refine ⟨fun d' hd' => ?_, fun d' ho hn => ?_⟩
  · obtain ⟨hne, hbefore⟩ := hahead d' hd'
    rw [hmods, modsOf_append, h.ahead d' hbefore, List.nil_append]
    rcases hne with hne | rfl
    · exact modsOf_other fun mod hmod heq => hne (heq.symm.trans (hdesc mod hmod))
    · rfl
  · rw [hmods, modsOf_append]
    by_cases hd : d' = d
    · subst hd
      rw [h.ahead d' hin, hsame]
      exact hshape ho hn
    · obtain ⟨ho', hn'⟩ := hother d' hd ho hn
      rw [modsOf_other fun mod hmod heq => hd (heq.symm.trans (hdesc mod hmod)), List.append_nil]
      exact h.passed d' ho' hn'

theorem Shapes.round {mods : List (Modification δ ν)} {ml : List (Modification δ ν)}
    (hs : Shapes sch old new ⟨o :: os, n :: ns, mods, ml⟩)
    (h : DiffInv sch isCtx old new ⟨o :: os, n :: ns, mods, ml⟩ attrs) (hO : EntryOk sch.toModSchema old)
    (hround : Round sch isCtx o os n ns mods s') : Shapes sch old new s' := by
  have hos : o.desc ∉ os.map (·.desc) := (List.nodup_cons.mp (hO.nodup.sublist (h.suffix.sublist.map _))).1
  have hns : n.desc ∉ ns.map (·.desc) := (List.nodup_cons.mp h.newNodup).1
  have hold : attrFind old o.desc = some o := attrFind_of_mem hO.nodup (h.suffix.subset mem_cons_self)
  have hnew : IsNew sch.toModSchema new n := ⟨(h.newAttr n mem_cons_self).1, (h.newAttr n mem_cons_self).2⟩
  have hlacks : o.desc ∉ (n :: ns).map (·.desc) → attrFind new o.desc = none := fun hout =>
    attrFind_none.mpr fun hmem => hout (h.pending o mem_cons_self hmem)
  have hboth : ∀ mods', o.desc = n.desc → (∀ mod ∈ mods', mod.desc = n.desc) → Shape sch old new n.desc mods' →
      Shapes sch old new ⟨os, ns, mods ++ mods', ns.map replaceMod⟩ := by
    intro mods' hdesc hmods' hshape
    refine hs.next rfl hmods' ?_ (.inr mem_cons_self) ?_ fun _ _ => hshape
    · rintro d' (hd' | hd')
      · exact ⟨.inl fun heq => hos (hdesc ▸ heq ▸ hd'), .inl (mem_cons_of_mem _ hd')⟩
      · exact ⟨.inl fun heq => hns (heq ▸ hd'), .inr (mem_cons_of_mem _ hd')⟩
    · intro d' hne ho hn
      simp [hne, ho, hn, hdesc]
  cases hround with
  | take htake =>
    have hout : n.desc ∉ (o :: os).map (·.desc) := htake.elim (h.seen n mem_cons_self) id
    refine hs.next (d := n.desc) rfl (by simp [replaceMod]) ?_ (.inr mem_cons_self) ?_ fun _ _ => .replace rfl hnew
    · rintro d' (hd' | hd')
      · exact ⟨.inl fun heq => hout (heq ▸ hd'), .inl hd'⟩
      · exact ⟨.inl fun heq => hns (heq ▸ hd'), .inr (mem_cons_of_mem _ hd')⟩
    · intro d' hne ho hn
      exact ⟨ho, by simp [hne, hn]⟩
  | pass hctx =>
    refine hs.next (d := o.desc) (List.append_nil mods).symm (by simp) ?_ (.inl mem_cons_self) ?_
      fun _ hn => .left (hlacks hn)
    · rintro d' (hd' | hd')
      · exact ⟨.inr rfl, .inl (mem_cons_of_mem _ hd')⟩
      · exact ⟨.inr rfl, .inr hd'⟩
    · intro d' hne ho hn
      exact ⟨by simp [hne, ho], hn⟩
  | mark hmem =>
    have hdescs : (attrSet (n :: ns) o.desc markSeen).map (·.desc) = (n :: ns).map (·.desc) := attrSet_descs fun _ => rfl
    refine hs.next (d := o.desc) (List.append_nil mods).symm (by simp) ?_ (.inl mem_cons_self) ?_
      fun _ hn => absurd (hdescs ▸ hmem) hn
    · rintro d' (hd' | hd')
      · exact ⟨.inr rfl, .inl (mem_cons_of_mem _ hd')⟩
      · exact ⟨.inr rfl, .inr (hdescs ▸ hd')⟩
    · intro d' hne ho hn
      exact ⟨by simp [hne, ho], hdescs ▸ hn⟩
  | delete hout hin =>
    refine hs.next (d := o.desc) rfl (by simp) ?_ (.inl mem_cons_self) ?_ fun _ hn => .delete hold (hlacks hn)
    · rintro d' (hd' | hd')
      · exact ⟨.inl fun heq => hos (heq ▸ hd'), .inl (mem_cons_of_mem _ hd')⟩
      · exact ⟨.inl fun heq => hout (heq ▸ hd'), .inr hd'⟩
    · intro d' hne ho hn
      exact ⟨by simp [hne, ho], hn⟩
  | replace hdesc => exact hboth _ hdesc (by simp [replaceMod]) (.replace rfl hnew)
  | compare hdesc hmatch hlt hrule =>
    exact hboth _ hdesc (compared_desc hdesc) (.compare (hdesc ▸ hold) rfl hnew hmatch hlt (hdesc ▸ hrule))

theorem diffLoop_rule {P : DiffState δ ν → Prop} (hO : EntryOk sch.toModSchema old)
    (hround : ∀ {o os n ns mods attrs s'}, DiffInv sch isCtx old new ⟨o :: os, n :: ns, mods, (n :: ns).map replaceMod⟩ attrs →
      P ⟨o :: os, n :: ns, mods, (n :: ns).map replaceMod⟩ → Round sch isCtx o os n ns mods s' → P s')
    (k : Nat) (h : DiffInv sch isCtx old new s attrs) (hs : P s) (hloop : diffLoop sch isCtx k s = some s') : P s' := by
  induction k generalizing s attrs with
  | zero =>
    obtain rfl := Option.some.inj hloop
    exact hs
  | succ k ih =>
    unfold diffLoop at hloop
    split at hloop
    · obtain rfl := Option.some.inj hloop
      exact hs
    · rename_i hend
      obtain ⟨_ | ⟨o, os⟩, _ | ⟨n, ns⟩, mods, ml⟩ := s
      · exact absurd (.inl rfl) hend
      · exact absurd (.inl rfl) hend
      · exact absurd (.inr rfl) hend
      · obtain rfl : ml = (n :: ns).map replaceMod := h.ml
        obtain ⟨s₁, hstep, hr⟩ := @diffStep_cases _ _ _ _ sch isCtx o n os ns mods
          (hO.attr o (h.suffix.subset mem_cons_self)).vals (h.newAttr n mem_cons_self).1.vals
        obtain ⟨s₂, attrs₂, hstep', h', -⟩ := h.step hO
        obtain rfl := Option.some.inj (hstep.symm.trans hstep')
        rw [hstep, Option.bind_some] at hloop
        exact ih h' (hround h hs hr) hloop

theorem diff_shape (isCtx : Bool) (hO : EntryOk sch.toModSchema old) (hN : EntryOk sch.toModSchema new)
    (hfresh : ∀ a ∈ new, a.ixadd = false) :
    ∃ mods attrs, syncreplDiffEntry sch isCtx old new (new.map replaceMod) = some mods ∧
      applyMods sch.toModSchema old mods = .ok attrs ∧
      ∀ d, Shape sch old new d (modsOf mods d) ∧
        (¬ (isCtx = true ∧ d = sch.contextCSN) → SameValues attrs new d ∨ attrFind new d = none ∧ modsOf mods d = []) := by
  obtain ⟨s, attrs, hloop, h, -⟩ := diffLoop_inv hO (old.length + new.length) le_rfl
      (@diffInv_start _ _ _ _ sch isCtx _ _ hO hN hfresh)
  have hstart : Shapes sch old new ⟨old, new, [], new.map replaceMod⟩ :=
    ⟨fun _ _ => rfl, fun d _ hn => .left (attrFind_none.mpr hn)⟩
  have hs : Shapes sch old new s :=
    diffLoop_rule hO (fun h hs hround => hs.round h hO hround) _ (diffInv_start hO hN hfresh) hstart hloop
  obtain ⟨attrs', happ, hframe, hvals⟩ := applyMods_replace sch.toModSchema h.nodup h.newNodup
  refine ⟨s.mods ++ s.ml, attrs', ?_, by rw [applyMods_append h.run, h.ml, happ], fun d => ?_⟩
  · unfold syncreplDiffEntry
    rw [hloop, Option.map_some]
  rw [modsOf_append, h.ml]
  by_cases hd : d ∈ s.new.map (·.desc)
  · obtain ⟨n, hn, rfl⟩ := List.mem_map.mp hd
    have hone : modsOf (s.new.map replaceMod) n.desc = [replaceMod n] := modsOf_replace h.newNodup hn
    rw [hs.ahead _ (.inr hd), hone, List.nil_append]
    refine ⟨.replace rfl ⟨(h.newAttr n hn).1, (h.newAttr n hn).2⟩, fun _ => .inl ?_⟩
    unfold SameValues
    rw [(h.newAttr n hn).2]
    exact hvals n hn
  · have hnil : modsOf (s.new.map replaceMod) d = [] :=
      modsOf_other fun mod hmod heq => by
        obtain ⟨n, hn, rfl⟩ := List.mem_map.mp hmod
        exact hd (heq ▸ List.mem_map_of_mem hn)
    rw [hnil, List.append_nil]
    by_cases ho : d ∈ s.old.map (·.desc)
    · obtain ⟨o, ho', rfl⟩ := List.mem_map.mp ho
      have hlacks : attrFind new o.desc = none := attrFind_none.mpr fun hin => hd (h.pending o ho' hin)
      rw [hs.ahead _ (.inl ho)]
      exact ⟨.left hlacks, fun _ => .inr ⟨hlacks, rfl⟩⟩
    · refine ⟨hs.passed d ho hd, fun hctx => .inl ?_⟩
      unfold SameValues
      rw [hframe d hd]
      exact h.settled d hctx ho hd

end Filter

end Sync
end ReOpenLDAP
