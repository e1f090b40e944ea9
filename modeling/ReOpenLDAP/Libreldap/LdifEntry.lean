import Mathlib.Data.List.TakeWhile
import ReOpenLDAP.Lib.InPlace
import ReOpenLDAP.Libreldap.LdifMods

/-!
# Libreldap.LdifEntry

The attributes of a new entry.

* `byType`         — the attributes of a text, each with all of its values.
-/

namespace ReOpenLDAP
namespace Libreldap
namespace LdifRecord

open Ascii List

section

variable {β γ : Type}

def valuesOf (n : List Octet) (attrs : List (List Octet × β)) : List β := (attrs.filter fun p => CaseEq n p.1).map Prod.snd

def others (n : List Octet) (attrs : List (List Octet × β)) : List (List Octet × β) := attrs.filter fun p => ¬ CaseEq n p.1

def byType : List (List Octet × β) → List (List Octet × List β)
  | [] => []
  | (n, v) :: attrs => (n, v :: valuesOf n attrs) :: byType (others n attrs)
termination_by attrs => attrs.length
decreasing_by exact Nat.lt_succ_of_le (length_filter_le ..)

@[simp] theorem byType_nil : byType ([] : List (List Octet × β)) = [] := by rw [byType.eq_def]

theorem byType_cons (n : List Octet) (v : β) (attrs : List (List Octet × β)) :
    byType ((n, v) :: attrs) = (n, v :: valuesOf n attrs) :: byType (others n attrs) := by rw [byType.eq_def]

theorem byType_map (f : β → γ) (attrs : List (List Octet × β)) :
    byType (attrs.map fun p => (p.1, f p.2)) = (byType attrs).map fun g => (g.1, g.2.map f) := by
  fun_induction byType attrs with
  | case1 => simp
  | case2 n v attrs ih =>
    rw [map_cons, byType_cons, valuesOf, others, List.filter_map, List.filter_map, List.map_map, map_cons, ← ih, map_cons,
      valuesOf, List.map_map]
    rfl

theorem length_byType (attrs : List (List Octet × β)) : ((byType attrs).map fun g => g.2.length).sum = attrs.length := by
  fun_induction byType attrs with
  | case1 => rfl
  | case2 n v attrs ih =>
    have hsum := length_eq_length_filter_add (l := attrs) fun p => decide (CaseEq n p.1)
    simp only [others, decide_not] at ih ⊢
    rw [map_cons, sum_cons, ih, length_cons, valuesOf, length_map, length_cons]
    omega

theorem mem_byType {attrs : List (List Octet × β)} {t : List Octet × List β} (h : t ∈ byType attrs) : ∃ p ∈ attrs, p.1 = t.1 := by
  fun_induction byType attrs with
  | case1 => cases h
  | case2 n v attrs ih =>
    rcases List.mem_cons.mp h with rfl | h
    · exact ⟨(n, v), mem_cons_self .., rfl⟩
    · obtain ⟨p, hp, heq⟩ := ih h
      exact ⟨p, mem_cons_of_mem _ (mem_of_mem_filter hp), heq⟩

end

namespace Slot

def name (s : Slot) : List Octet := s.btype.getD []

/-- A line that has a type; there is no `'\0'` in it. -/
structure Named (s : Slot) : Prop where
  some : s.btype = some s.name
  ne_nil : s.name ≠ []
  no_nul : 0 ∉ s.name

def attr (s : Slot) : List Octet × Option (List Octet) := (s.name, s.val)

end Slot

open Slot

theorem cstr_eq {s : List Octet} (h : 0 ∉ s) : cstr s = s := by
  rw [cstr, takeWhile_eq_self_iff]
  intro c hc
  exact decide_eq_true fun h0 => h (h0 ▸ hc)

theorem bvCasematch_named {a b : List Octet} (ha : 0 ∉ a) (hb : 0 ∉ b) :
    bvCasematch (some a) (some b) = .ok (decide (CaseEq a b)) := by
  rw [bvCasematch]
  split
  · rename_i hlen
    have hno : ¬ CaseEq a b := fun h => hlen h.length_eq
    rw [decide_eq_false hno]
  · simp only [cstr_eq ha, cstr_eq hb]

theorem bvCasematch_null {a : List Octet} (ha : a ≠ []) : bvCasematch (some a) none = .ok false := by
  rw [bvCasematch.eq_def, if_pos (by simpa using ha)]

variable {pre btw rest : List Slot} {g r s : Slot}

@[simp] theorem slotAt_append {i : ℕ} (hi : i = pre.length) : slotAt (pre ++ s :: rest) i = s := by
  subst hi
  rw [slotAt, getD_eq_getElem?_getD, List.getElem?_append_right (le_refl _), Nat.sub_self]
  rfl

theorem moveUp_eq : moveUp (pre ++ g :: (btw ++ r :: rest)) pre.length (pre.length + 1 + btw.length) =
    pre ++ g :: { r with btype := g.btype } :: (btw ++ rest) := by
  have hsplit : pre ++ g :: (btw ++ r :: rest) = (pre ++ g :: btw) ++ r :: rest := by simp
  have hlen : pre.length + 1 + btw.length = (pre ++ g :: btw).length := by
    rw [length_append, length_cons]
    omega
  rw [moveUp, slotAt_append rfl, hsplit, slotAt_append hlen, hlen, eraseIdx_append_of_length_le (le_refl _), Nat.sub_self,
    eraseIdx_zero, tail_cons, append_assoc, cons_append]
  have hat := InPlace.insertIdx_middle (pre ++ [g]) (btw ++ rest) { r with btype := g.btype }
  rw [length_append, length_singleton] at hat
  simpa using hat

theorem gatherFrom_spec (hg : g.Named) (hrest : ∀ s ∈ rest, s.Named) (nmods : ℕ) :
    ∃ ms, gatherFrom rest.length pre.length (pre.length + 1 + btw.length) nmods (pre ++ g :: (btw ++ rest)) =
        .ok (pre ++ g :: (ms ++ (btw ++ rest.filter fun s => ¬ CaseEq g.name s.name)), pre.length + ms.length, nmods - ms.length) ∧
      ms.map Slot.val = (rest.filter fun s => CaseEq g.name s.name).map Slot.val ∧
      ∀ m ∈ ms, m.Named ∧ CaseEq g.name m.name := by
  induction rest generalizing pre btw g nmods with
  | nil => exact ⟨[], by simp [gatherFrom], rfl, by simp⟩
  | cons r rest ih =>
    obtain ⟨hr, hrest⟩ := List.forall_mem_cons.mp hrest
    have hsplit : pre ++ g :: (btw ++ r :: rest) = (pre ++ g :: btw) ++ r :: rest := by simp
    have hat : slotAt (pre ++ g :: (btw ++ r :: rest)) (pre.length + 1 + btw.length) = r := by
      rw [hsplit, slotAt_append (by rw [length_append, length_cons]; omega)]
    have hmatch : bvCasematch g.btype r.btype = .ok (decide (CaseEq g.name r.name)) := by
      rw [hg.some, hr.some]
      exact bvCasematch_named hg.no_nul hr.no_nul
    rw [length_cons, gatherFrom, hat, slotAt_append rfl, if_neg (by rw [hr.some]; exact Option.some_ne_none _), hmatch]
    by_cases heq : CaseEq g.name r.name
    · -- the line goes to `g`, with the type of it if there are others between them
      obtain ⟨r', hmoved, hval, hname, hr'⟩ : ∃ r' : Slot,
          (if pre.length + 1 + btw.length ≠ pre.length + 1 then
            moveUp (pre ++ g :: (btw ++ r :: rest)) pre.length (pre.length + 1 + btw.length) else pre ++ g :: (btw ++ r :: rest)) =
              pre ++ g :: r' :: (btw ++ rest) ∧ r'.val = r.val ∧ CaseEq g.name r'.name ∧ r'.Named := by
        by_cases hbtw : btw = []
        · subst hbtw
          exact ⟨r, by rw [if_neg (by simp)]; rfl, rfl, heq, hr⟩
        · have := List.length_pos_iff.mpr hbtw
          exact ⟨{ r with btype := g.btype }, by rw [if_pos (by omega), moveUp_eq], rfl, CaseEq.refl _, ⟨hg.some, hg.ne_nil, hg.no_nul⟩⟩
      obtain ⟨ms, hms, hvals, hall⟩ := @ih (pre ++ [g]) btw r' hr' hrest (nmods - 1)
      have hsame : ∀ s : Slot, CaseEq r'.name s.name ↔ CaseEq g.name s.name :=
        fun s => ⟨fun h => hname.trans h, fun h => hname.symm.trans h⟩
      simp only [hsame] at hms hvals hall
      have hfalse : ((r :: rest).filter fun s => ¬ CaseEq g.name s.name) = rest.filter fun s => ¬ CaseEq g.name s.name :=
        filter_cons_of_neg (by simp [heq])
      have htrue : ((r :: rest).filter fun s => CaseEq g.name s.name) = r :: rest.filter fun s => CaseEq g.name s.name :=
        filter_cons_of_pos (by simp [heq])
      refine ⟨r' :: ms, ?_, ?_, ?_⟩
      · simp only [decide_eq_true heq, hmoved, hfalse]
        rw [length_append, length_singleton, show pre.length + 1 + 1 + btw.length = pre.length + 1 + btw.length + 1 by omega,
          append_assoc, singleton_append] at hms
        rw [hms]
        have hi : pre.length + 1 + ms.length = pre.length + (r' :: ms).length := by rw [length_cons]; omega
        have hn : nmods - 1 - ms.length = nmods - (r' :: ms).length := by rw [length_cons]; omega
        rw [hi, hn]
        simp
      · rw [htrue, map_cons, map_cons, hval, hvals]
      · exact List.forall_mem_cons.mpr ⟨⟨hr', hname⟩, hall⟩
    · obtain ⟨ms, hms, hvals, hall⟩ := @ih pre (btw ++ [r]) g hg hrest nmods
      have hfalse : ((r :: rest).filter fun s => ¬ CaseEq g.name s.name) = r :: rest.filter fun s => ¬ CaseEq g.name s.name :=
        filter_cons_of_pos (by simp [heq])
      have htrue : ((r :: rest).filter fun s => CaseEq g.name s.name) = rest.filter fun s => CaseEq g.name s.name :=
        filter_cons_of_neg (by simp [heq])
      refine ⟨ms, ?_, by rw [htrue, hvals], hall⟩
      rw [length_append, length_singleton, ← Nat.add_assoc, append_assoc, singleton_append] at hms
      simp only [decide_eq_false heq, hms, hfalse]
      simp

def lines (runs : List (Slot × List Slot)) : List Slot := runs.flatMap fun r => r.1 :: r.2

@[simp] theorem lines_cons (r : Slot × List Slot) (runs : List (Slot × List Slot)) : lines (r :: runs) = r.1 :: (r.2 ++ lines runs) := rfl

structure Runs (runs : List (Slot × List Slot)) (attrs : List (List Octet × Option (List Octet))) : Prop where
  head : ∀ r ∈ runs, r.1.Named
  tail : ∀ r ∈ runs, ∀ m ∈ r.2, m.Named ∧ CaseEq r.1.name m.name
  apart : runs.Pairwise fun r t => ¬ CaseEq r.1.name t.1.name
  eq : runs.map (fun r => (r.1.name, r.1.val :: r.2.map Slot.val)) = byType attrs

theorem gather_spec {tail : List Slot} (rounds : ℕ) (hrounds : tail.length ≤ rounds) (htail : ∀ s ∈ tail, s.Named) (pre : List Slot)
    (nmods : ℕ) (hnmods : tail.length ≤ nmods) :
    ∃ runs nmods', gather rounds pre.length nmods (pre ++ tail) = .ok (pre ++ lines runs, nmods') ∧
      Runs runs (tail.map Slot.attr) ∧ nmods' + tail.length = nmods + runs.length ∧ (lines runs).length = tail.length := by
  induction rounds generalizing pre tail nmods with
  | zero =>
    obtain rfl := List.length_eq_zero_iff.mp (Nat.le_zero.mp hrounds)
    exact ⟨[], nmods, rfl, ⟨by simp, by simp, .nil, by simp⟩, rfl, rfl⟩
  | succ rounds ih =>
    cases tail with
    | nil => exact ⟨[], nmods, by simp [gather, lines], ⟨by simp, by simp, .nil, by simp⟩, rfl, rfl⟩
    | cons g rest =>
      obtain ⟨hg, hrest⟩ := List.forall_mem_cons.mp htail
      obtain ⟨ms, hms, hvals, hall⟩ := @gatherFrom_spec pre [] rest g hg hrest nmods
      have hcount := length_eq_length_filter_add (l := rest) fun s => decide (CaseEq g.name s.name)
      have hlen : ms.length = (rest.filter fun s => CaseEq g.name s.name).length := by simpa using congrArg List.length hvals
      simp only [decide_not, List.nil_append, length_nil, Nat.add_zero] at hms hcount
      rw [length_cons] at hrounds hnmods
      obtain ⟨runs, nmods', hruns, hspec, hsum, hlines⟩ := @ih (rest.filter fun s => !decide (CaseEq g.name s.name)) (by omega)
        (fun s hs => hrest s (mem_of_mem_filter hs)) (pre ++ g :: ms) (nmods - ms.length) (by omega)
      have hpos : pre.length + 1 + ms.length = (pre ++ g :: ms).length := by
        rw [length_append, length_cons]
        omega
      have hattrs : byType ((g :: rest).map Slot.attr) = (g.name, g.val :: ms.map Slot.val) ::
          byType ((rest.filter fun s => !decide (CaseEq g.name s.name)).map Slot.attr) := by
        rw [map_cons, Slot.attr, byType_cons, valuesOf, others, List.filter_map, List.filter_map, List.map_map, hvals]
        simp only [decide_not]
        rfl
      refine ⟨(g, ms) :: runs, nmods', ?_, ⟨?_, ?_, ?_, ?_⟩, ?_, ?_⟩
      · rw [gather, if_pos (by simp)]
        have hm : (pre ++ g :: rest).length - (pre.length + 1) = rest.length := by
          rw [length_append, length_cons]
          omega
        rw [hm, hms]
        simp only
        rw [show pre.length + ms.length + 1 = (pre ++ g :: ms).length by rw [length_append, length_cons]; omega]
        rw [append_assoc, cons_append] at hruns
        rw [hruns]
        simp
      · exact List.forall_mem_cons.mpr ⟨hg, hspec.head⟩
      · exact List.forall_mem_cons.mpr ⟨hall, hspec.tail⟩
      · refine List.pairwise_cons.mpr ⟨fun t ht hsame => ?_, hspec.apart⟩
        have hmem := List.mem_map_of_mem (f := fun r : Slot × List Slot => (r.1.name, r.1.val :: r.2.map Slot.val)) ht
        rw [hspec.eq] at hmem
        obtain ⟨p, hp, hname⟩ := mem_byType hmem
        obtain ⟨s, hs, rfl⟩ := List.mem_map.mp hp
        have hno := (List.mem_filter.mp hs).2
        rw [show s.name = t.1.name from hname, decide_eq_true hsame] at hno
        cases hno
      · rw [map_cons, hspec.eq, hattrs]
      · rw [length_cons, length_cons]
        omega
      · rw [lines_cons, length_cons, length_append, hlines, length_cons]
        simp only
        omega

/-! ## Filling -/

def Runs.group (r : Slot × List Slot) : Group := ⟨LDAP_MOD_ADD ||| LDAP_MOD_BVALUES, r.1.btype, false, r.1.val :: r.2.map Slot.val⟩

theorem fillEntry_tail {ms : List Slot} (hg : g.Named) (hms : ∀ m ∈ ms, m.Named ∧ CaseEq g.name m.name) {gs : List Group} {grp : Group}
    {nmods cap : ℕ} (hlen : gs.length < nmods) (hcap : (cellsOf (gs ++ [grp])).length + ms.length < cap) :
    fillEntry nmods (ms ++ rest) g.btype (filled nmods cap (gs ++ [grp])) =
      fillEntry nmods rest g.btype (filled nmods cap (gs ++ [{ grp with vals := grp.vals ++ ms.map Slot.val }])) := by
  induction ms generalizing grp with
  | nil => simp
  | cons m ms ih =>
    obtain ⟨⟨hm, hname⟩, hms⟩ := List.forall_mem_cons.mp hms
    have hmatch : bvCasematch m.btype g.btype = .ok true := by
      rw [hm.some, hg.some, bvCasematch_named hm.no_nul hg.no_nul, decide_eq_true hname.symm]
    rw [length_cons] at hcap
    have hpush := @ih hms (grp.push m.val) (by
      rw [cellsOf_append, cellsOf_cons, Group.cells_push]
      simp only [cellsOf_append, cellsOf_cons, cellsOf_nil, length_append, length_cons, length_nil] at hcap ⊢
      omega)
    rw [cons_append, fillEntry, hmatch]
    simp only [bind, Except.bind, if_true, putBvl_filled (show (cellsOf (gs ++ [grp])).length < cap by omega) hlen]
    rw [hpush]
    simp [Group.push]

theorem fillEntry_spec {runs : List (Slot × List Slot)} {bv : Option (List Octet)} (hhead : ∀ r ∈ runs, r.1.Named)
    (htail : ∀ r ∈ runs, ∀ m ∈ r.2, m.Named ∧ CaseEq r.1.name m.name) (hapart : runs.Pairwise fun r t => ¬ CaseEq r.1.name t.1.name)
    (hbv : ∀ r ∈ runs, bvCasematch r.1.btype bv = .ok false) {gs : List Group} {nmods cap : ℕ} (hlen : gs.length + runs.length ≤ nmods)
    (hcap : (cellsOf (gs ++ runs.map Runs.group)).length < cap) :
    fillEntry nmods (lines runs) bv (filled nmods cap gs) = closeMods nmods (filled nmods cap (gs ++ runs.map Runs.group)) := by
  induction runs generalizing bv gs with
  | nil => simp [lines, fillEntry]
  | cons r runs ih =>
    obtain ⟨hr, hhead⟩ := List.forall_mem_cons.mp hhead
    obtain ⟨hms, htail⟩ := List.forall_mem_cons.mp htail
    obtain ⟨hrest, hapart⟩ := List.pairwise_cons.mp hapart
    rw [length_cons] at hlen
    rw [map_cons, append_cons] at hcap ⊢
    have hcells : (cellsOf gs).length + 1 + 1 + r.2.length < cap := by
      simp only [cellsOf_append, cellsOf_cons, cellsOf_nil, length_append, Group.length_cells, Runs.group, length_cons,
        length_map] at hcap
      omega
    have hnext : ∀ t ∈ runs, bvCasematch t.1.btype r.1.btype = .ok false := by
      intro t ht
      have hno : ¬ CaseEq t.1.name r.1.name := fun h => hrest t ht h.symm
      rw [(hhead t ht).some, hr.some, bvCasematch_named (hhead t ht).no_nul hr.no_nul, decide_eq_false hno]
    rw [lines_cons, fillEntry, hbv r (mem_cons_self ..)]
    simp only [bind, Except.bind, Bool.false_eq_true, if_false]
    rw [newMod_filled (by omega) (by omega)]
    simp only
    rw [putBvl_filled (by simp only [cellsOf_append, cellsOf_cons, cellsOf_nil, length_append, Group.length_cells, length_nil]; omega)
      (by omega)]
    simp only
    rw [fillEntry_tail hr hms (by omega) (by
      simp only [cellsOf_append, cellsOf_cons, cellsOf_nil, length_append, Group.length_cells, Group.push, List.nil_append,
        length_singleton, length_nil]
      omega)]
    exact ih hhead htail hapart hnext (by rw [length_append, length_singleton]; omega) hcap

def entryMod (g : List Octet × List (Option (List Octet))) : Listed := ⟨LDAP_MOD_ADD ||| LDAP_MOD_BVALUES, some g.1, some g.2⟩

theorem Runs.listed {runs : List (Slot × List Slot)} {attrs : List (List Octet × Option (List Octet))} (h : Runs runs attrs) :
    (runs.map Runs.group).map Group.listed = (byType attrs).map entryMod := by
  rw [← h.eq, List.map_map, List.map_map]
  refine map_congr_left fun r hr => ?_
  have hr := h.head r hr
  simp only [Function.comp_apply, Group.listed, Runs.group, entryMod, Bool.false_eq_true, if_false]
  rw [hr.some, Option.map_some, cstr_eq hr.no_nul]

theorem newEntry_spec {tail : List Slot} (htail : ∀ s ∈ tail, s.Named) (pre : List Slot) :
    ∃ o, newEntry (pre ++ tail) pre.length = .ok o ∧ listed o = some ((byType (tail.map Slot.attr)).map entryMod) := by
  have hlen : (pre ++ tail).length - pre.length = tail.length := by
    rw [length_append]
    omega
  obtain ⟨runs, nmods, hgather, hruns, hsum, hlines⟩ :=
    gather_spec (pre ++ tail).length (by rw [length_append]; omega) htail pre tail.length (le_refl _)
  have hnull : ∀ r ∈ runs, bvCasematch r.1.btype none = .ok false := by
    intro r hr
    rw [(hruns.head r hr).some]
    exact bvCasematch_null (hruns.head r hr).ne_nil
  -- a null pointer for each attribute, and a pointer for each value
  have hcells : (cellsOf (runs.map Runs.group)).length = runs.length + tail.length := by
    have hvals := length_byType (tail.map Slot.attr)
    rw [← hruns.eq, List.map_map, length_map] at hvals
    rw [length_cellsOf, length_map, List.map_map, ← hvals]
    simp [Function.comp_def, Runs.group]
  have hfill := @fillEntry_spec runs none hruns.head hruns.tail hruns.apart hnull [] nmods (tail.length + nmods + 1)
    (by rw [length_nil]; omega) (by rw [List.nil_append, hcells]; omega)
  obtain ⟨o, ho, hclosed⟩ := @closeMods_filled nmods (tail.length + nmods + 1) (runs.map Runs.group) (by omega)
    (by rw [length_map]; omega)
  refine ⟨o, ?_, by rw [hclosed.listed, hruns.listed]⟩
  rw [newEntry, hlen, hgather]
  simp only [bind, Except.bind, drop_left]
  rw [length_append, Nat.add_sub_cancel_left, hlines, allocMods_eq, hfill, List.nil_append, ho]

end LdifRecord
end Libreldap
end ReOpenLDAP
