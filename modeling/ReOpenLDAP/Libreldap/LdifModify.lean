import ReOpenLDAP.Libreldap.LdifEntry

/-!
# Libreldap.LdifModify

The parts of a modify request.

* `Piece`          — the lines of a part.
-/

namespace ReOpenLDAP
namespace Libreldap
namespace LdifRecord

open Ascii Slot List

inductive ModOp where
  | add
  | replace
  | delete
  | increment
deriving DecidableEq

namespace ModOp

def word : ModOp → String
  | add => "add"
  | replace => "replace"
  | delete => "delete"
  | increment => "increment"

def code : ModOp → ℕ
  | add => LDAP_MOD_ADD
  | replace => LDAP_MOD_REPLACE
  | delete => LDAP_MOD_DELETE
  | increment => LDAP_MOD_INCREMENT

def deferred : ModOp → Bool
  | add | increment => false
  | replace | delete => true

@[simp] theorem code_flag (op : ModOp) : op.code &&& LDAP_MOD_BVALUES = 0 := by cases op <;> rfl

@[simp] theorem deferred_flag (op : ModOp) : (op.code ||| LDAP_MOD_BVALUES) &&& LDAP_MOD_BVALUES = LDAP_MOD_BVALUES := by cases op <;> rfl

@[simp] theorem flag_flag (op : ModOp) : (op.code ||| LDAP_MOD_BVALUES) ||| LDAP_MOD_BVALUES = op.code ||| LDAP_MOD_BVALUES := by
  cases op <;> rfl

theorem code_ne_sep (op : ModOp) : op.code ≠ M_SEP ∧ op.code ||| LDAP_MOD_BVALUES ≠ M_SEP := by cases op <;> decide

theorem word_inj {op op' : ModOp} {kw : List Octet} (h : CaseEq kw (text op.word)) (h' : CaseEq kw (text op'.word)) : op = op' := by
  have heq := h.symm.trans h'
  revert heq
  cases op <;> cases op' <;> decide

theorem word_other (op : ModOp) : ¬ CaseEq (text op.word) (text "changetype") ∧ ¬ CaseEq (text op.word) (text "control") := by
  cases op <;> decide

end ModOp

theorem isWord_some {a : List Octet} (ha : 0 ∉ a) (word : String) : isWord (some a) word = decide (CaseEq a (text word)) := by
  rw [isWord, cstr_eq ha]
  by_cases h : CaseEq a (text word)
  · rw [decide_eq_true h, decide_eq_true h.length_eq]
    rfl
  · rw [decide_eq_false h, Bool.and_false]

structure Piece where
  op : ModOp
  head : Slot
  vals : List Slot
  sep : Slot

namespace Piece

def slots (p : Piece) : List Slot := p.head :: (p.vals ++ [p.sep])

def attr (p : Piece) : List Octet := p.head.val.getD []

structure Ok (p : Piece) : Prop where
  word : ∃ kw, p.head.btype = some kw ∧ 0 ∉ kw ∧ CaseEq kw (text p.op.word)
  some : p.head.val = some p.attr
  ne_nil : p.attr ≠ []
  no_nul : 0 ∉ p.attr
  vals : ∀ v ∈ p.vals, v.Named ∧ CaseEq v.name p.attr
  sep : p.sep.btype = none

def bare (p : Piece) : Bool := p.op.deferred && p.vals.isEmpty

def header (p : Piece) : Slot := if p.op.deferred then { p.head with btype := p.head.val } else p.head

/-- The lines with their `lr_mops`. -/
def done (p : Piece) : List (Slot × ℕ) :=
  (p.header, if p.bare then p.op.code ||| LDAP_MOD_BVALUES else M_SEP) :: (p.vals.map (·, p.op.code) ++ [(p.sep, M_SEP)])

/-- What the part is worth in `nmods`. -/
def weight (p : Piece) : ℕ := if p.bare then 1 else p.vals.length

def group (p : Piece) : List Group :=
  match p.vals with
  | [] => if p.op.deferred then [⟨p.op.code ||| LDAP_MOD_BVALUES, p.head.val, true, [p.head.val]⟩] else []
  | v :: vs => [⟨p.op.code ||| LDAP_MOD_BVALUES, v.btype, false, v.val :: vs.map Slot.val⟩]

theorem length_group_le (p : Piece) : p.group.length ≤ p.weight := by
  rw [group, weight, bare]
  cases p.vals with
  | nil => cases p.op.deferred <;> simp
  | cons v vs => simp

theorem length_cells_le (p : Piece) : (cellsOf p.group).length ≤ p.weight + p.slots.length := by
  rw [group, weight, bare, slots]
  cases p.vals with
  | nil => cases p.op.deferred <;> simp
  | cons v vs =>
    simp only [cellsOf_cons, cellsOf_nil, length_append, Group.length_cells, length_cons, length_map, length_nil,
      isEmpty_cons, Bool.and_false, Bool.false_eq_true, if_false]
    omega

end Piece

section

variable {st : ModState} {p : Piece} {v : Slot} {vs : List Slot}

theorem modLine_head (hp : p.Ok) (h : st.expectModop = true) : modLine st p.head = .ok
    { done := (p.header, if p.op.deferred then p.op.code ||| LDAP_MOD_BVALUES else M_SEP) :: st.done
      nmods := if p.op.deferred then st.nmods else st.nmods - 1
      modop := p.op.code, expectModop := false, expectSep := true, bv := p.head.val } := by
  obtain ⟨kw, hkw, hnul, hword⟩ := hp.word
  have hno : ∀ op, op ≠ p.op → isWord (some kw) op.word = false := by
    intro op hop
    rw [isWord_some hnul, decide_eq_false fun h => hop (ModOp.word_inj h hword)]
  have hyes : isWord (some kw) p.op.word = true := by rw [isWord_some hnul, decide_eq_true hword]
  have hadd := hno .add
  have hreplace := hno .replace
  have hdelete := hno .delete
  rw [modLine, if_pos h, modopLine, hkw, Piece.header]
  simp only [ModOp.word] at hadd hreplace hdelete
  cases hop : p.op <;> simp only [hop, ModOp.word] at hyes <;> simp_all [ModOp.deferred, ModOp.code]

theorem modLine_value (hv : v.Named) (h : st.expectModop = false) {bv : List Octet} (hbv : st.bv = some bv) (hnul : 0 ∉ bv)
    (hname : CaseEq v.name bv) {s : Slot} {mop : ℕ} {done : List (Slot × ℕ)} (hdone : st.done = (s, mop) :: done)
    (hs : mop &&& LDAP_MOD_BVALUES ≠ 0 → s.btype = some bv) : modLine st v = .ok
    { st with
      done := (v, st.modop) :: (s, if mop &&& LDAP_MOD_BVALUES ≠ 0 then M_SEP else mop) :: done
      nmods := if mop &&& LDAP_MOD_BVALUES ≠ 0 then st.nmods - 1 else st.nmods } := by
  have hmatch : bvCasematch v.btype (some bv) = .ok true := by rw [hv.some, bvCasematch_named hv.no_nul hnul, decide_eq_true hname]
  rw [modLine, h, if_neg (by simp), if_neg (fun hsep => hv.ne_nil hsep.2), valueLine, hbv, hmatch]
  simp only [bind, Except.bind, if_true, hdone]
  by_cases hflag : mop &&& LDAP_MOD_BVALUES ≠ 0
  · simp [hflag, hs hflag, hmatch, pure, Except.pure, h]
  · simp [hflag, pure, Except.pure, h]

theorem modLine_values (hvs : ∀ v ∈ vs, v.Named) (h : st.expectModop = false) {bv : List Octet} (hbv : st.bv = some bv) (hnul : 0 ∉ bv)
    (hname : ∀ v ∈ vs, CaseEq v.name bv) {s : Slot} {mop : ℕ} {done : List (Slot × ℕ)} (hdone : st.done = (s, mop) :: done)
    (hflag : mop &&& LDAP_MOD_BVALUES = 0) (hmodop : st.modop &&& LDAP_MOD_BVALUES = 0) :
    vs.foldlM modLine st = .ok { st with done := (vs.map (·, st.modop)).reverse ++ st.done } := by
  induction vs generalizing st s mop done with
  | nil => rfl
  | cons v vs ih =>
    obtain ⟨hv, hvs⟩ := List.forall_mem_cons.mp hvs
    obtain ⟨hvname, hname⟩ := List.forall_mem_cons.mp hname
    rw [foldlM_cons, modLine_value hv h hbv hnul hvname hdone (fun hno => absurd hflag hno)]
    simp only [bind, Except.bind, hflag, ne_eq, not_true_eq_false, if_false]
    rw [@ih { st with done := (v, st.modop) :: (s, mop) :: done } hvs h hbv hname _ _ _ rfl hmodop hmodop, hdone]
    simp

theorem piece_spec (hp : p.Ok) (h : st.expectModop = true) : p.slots.foldlM modLine st = .ok
    { done := p.done.reverse ++ st.done, nmods := st.nmods - (if p.bare then 1 else 2), modop := p.op.code
      expectModop := true, expectSep := false, bv := p.head.val } := by
  have hsep : ∀ st : ModState, st.expectModop = false → st.expectSep = true → modLine st p.sep =
      .ok { st with done := (p.sep, M_SEP) :: st.done, expectSep := false, expectModop := true, nmods := st.nmods - 1 } := by
    intro st hmodop hexpect
    rw [modLine, hmodop, if_neg (by simp), if_pos ⟨hexpect, by rw [hp.sep]; rfl⟩]
  rw [Piece.slots, foldlM_cons, modLine_head hp h, Piece.done, Piece.bare]
  simp only [bind, Except.bind]
  cases hvals : p.vals with
  | nil =>
    rw [List.nil_append, foldlM_cons, hsep _ rfl rfl]
    simp only [bind, Except.bind, foldlM_nil, pure, Except.pure]
    cases p.op.deferred <;> simp [Nat.sub_sub]
  | cons v vs =>
    obtain ⟨⟨hv, hvname⟩, hvs⟩ := List.forall_mem_cons.mp (hvals ▸ hp.vals)
    rw [cons_append, foldlM_cons]
    have hfirst := @modLine_value { done := (p.header, if p.op.deferred then p.op.code ||| LDAP_MOD_BVALUES else M_SEP) :: st.done
                                    nmods := if p.op.deferred then st.nmods else st.nmods - 1
                                    modop := p.op.code, expectModop := false, expectSep := true, bv := p.head.val } v hv rfl
      p.attr hp.some hp.no_nul hvname _ _ _ rfl (by
        intro hflag
        cases hdef : p.op.deferred with
        | true => rw [Piece.header, hdef, if_pos rfl, ← hp.some]
        | false => exact absurd (by simp only [hdef, Bool.false_eq_true, if_false]; rfl) hflag)
    rw [hfirst]
    simp only [bind, Except.bind]
    rw [foldlM_append, modLine_values (fun v hv => (hvs v hv).1) rfl hp.some hp.no_nul (fun v hv => (hvs v hv).2) rfl
      p.op.code_flag p.op.code_flag]
    simp only [bind, Except.bind, foldlM_cons]
    rw [hsep _ rfl rfl]
    have hsepflag : M_SEP &&& LDAP_MOD_BVALUES = 0 := rfl
    have hone : LDAP_MOD_BVALUES ≠ 0 := by decide
    simp only [foldlM_nil, pure, Except.pure]
    cases p.op.deferred <;> simp [Nat.sub_sub, hsepflag, hone]

theorem pieces_spec {ps : List Piece} (hps : ∀ p ∈ ps, p.Ok) (h : st.expectModop = true) {base : ℕ}
    (hnmods : st.nmods = base + (ps.flatMap Piece.slots).length) : ∃ st', (ps.flatMap Piece.slots).foldlM modLine st = .ok st' ∧
      st'.done = (ps.flatMap Piece.done).reverse ++ st.done ∧ st'.nmods = base + (ps.map Piece.weight).sum := by
  induction ps generalizing st base with
  | nil => exact ⟨st, rfl, rfl, hnmods⟩
  | cons p ps ih =>
    obtain ⟨hp, hps⟩ := List.forall_mem_cons.mp hps
    have hlen : p.slots.length = p.weight + (if p.bare then 1 else 2) := by
      rw [Piece.slots, Piece.weight]
      cases hbare : p.bare with
      | true =>
        have hnil : p.vals = [] := List.isEmpty_iff.mp (Bool.and_eq_true_iff.mp hbare).2
        simp [hnil]
      | false => simp
    rw [flatMap_cons, length_append] at hnmods
    obtain ⟨st', hst', hdone, hweight⟩ := @ih
      { done := p.done.reverse ++ st.done, nmods := st.nmods - (if p.bare then 1 else 2), modop := p.op.code
        expectModop := true, expectSep := false, bv := p.head.val } hps rfl (base + p.weight) (by simp only; omega)
    refine ⟨st', ?_, ?_, ?_⟩
    · rw [flatMap_cons, foldlM_append, piece_spec hp h]
      exact hst'
    · rw [hdone, flatMap_cons, reverse_append, append_assoc]
    · rw [hweight, map_cons, sum_cons]
      omega

end

/-! ## Filling -/

section

variable {nmods cap : ℕ} {gs : List Group} {rest : List (Slot × ℕ)}

theorem fillModify_new {s : Slot} {mop prev : ℕ} (hsep : mop ≠ M_SEP) (hprev : mop ≠ prev) (hlen : gs.length < nmods)
    (hcap : (cellsOf gs).length + 1 < cap) (bv : Option (List Octet)) :
    fillModify nmods ((s, mop) :: rest) prev bv (filled nmods cap gs) =
      fillModify nmods rest mop s.btype (filled nmods cap (gs ++
        [⟨mop ||| LDAP_MOD_BVALUES, s.btype, mop &&& LDAP_MOD_BVALUES ≠ 0, [s.val]⟩])) := by
  rw [fillModify, if_neg hsep]
  simp only [bind, Except.bind, if_pos hprev, Bool.false_eq_true, if_false]
  rw [newMod_filled (by omega) hlen]
  simp only
  rw [putBvl_filled (by simpa using hcap) hlen]
  rfl

theorem fillModify_values {vs : List Slot} {mop : ℕ} {bv : List Octet} {grp : Group} (hvs : ∀ v ∈ vs, v.Named ∧ CaseEq v.name bv)
    (hsep : mop ≠ M_SEP) (hnul : 0 ∉ bv) (hlen : gs.length < nmods) (hcap : (cellsOf (gs ++ [grp])).length + vs.length < cap) :
    fillModify nmods (vs.map (·, mop) ++ rest) mop (some bv) (filled nmods cap (gs ++ [grp])) =
      fillModify nmods rest mop (some bv) (filled nmods cap (gs ++ [{ grp with vals := grp.vals ++ vs.map Slot.val }])) := by
  induction vs generalizing grp with
  | nil => simp
  | cons v vs ih =>
    obtain ⟨⟨hv, hname⟩, hvs⟩ := List.forall_mem_cons.mp hvs
    have hmatch : bvCasematch v.btype (some bv) = .ok true := by rw [hv.some, bvCasematch_named hv.no_nul hnul, decide_eq_true hname]
    rw [length_cons] at hcap
    have hpush := @ih (grp.push v.val) hvs (by
      rw [cellsOf_append, cellsOf_cons, Group.cells_push]
      simp only [cellsOf_append, cellsOf_cons, cellsOf_nil, length_append, length_cons, length_nil] at hcap ⊢
      omega)
    rw [map_cons, cons_append, fillModify, if_neg hsep, if_neg (by simp), hmatch]
    simp only [bind, Except.bind, if_true, putBvl_filled (show (cellsOf (gs ++ [grp])).length < cap by omega) hlen]
    rw [hpush]
    simp [Group.push]

theorem fillModify_sep (s : Slot) (prev : ℕ) (bv : Option (List Octet)) (o : Mods) :
    fillModify nmods ((s, M_SEP) :: rest) prev bv o = fillModify nmods rest M_SEP bv o := by rw [fillModify, if_pos rfl]

theorem fillModify_piece {p : Piece} (hp : p.Ok) (hlen : gs.length + p.group.length ≤ nmods)
    (hcap : (cellsOf (gs ++ p.group)).length < cap) (bv : Option (List Octet)) :
    ∃ bv', fillModify nmods (p.done ++ rest) M_SEP bv (filled nmods cap gs) =
      fillModify nmods rest M_SEP bv' (filled nmods cap (gs ++ p.group)) := by
  obtain ⟨hcode, hflagged⟩ := p.op.code_ne_sep
  have hone : LDAP_MOD_BVALUES ≠ 0 := by decide
  rw [Piece.done, Piece.bare]
  rw [Piece.group] at hlen hcap ⊢
  cases hvals : p.vals with
  | nil =>
    cases hdef : p.op.deferred with
    | true =>
      have hheader : p.header.btype = p.head.val ∧ p.header.val = p.head.val := by simp [Piece.header, hdef]
      simp only [hvals, hdef, if_true, length_singleton, cellsOf_append, cellsOf_cons, cellsOf_nil, List.append_nil,
        length_append, Group.length_cells] at hlen hcap
      refine ⟨p.head.val, ?_⟩
      simp only [map_nil, List.nil_append, cons_append, isEmpty_nil, Bool.and_true, if_true]
      rw [fillModify_new hflagged hflagged (by omega) (by omega), fillModify_sep, hheader.1, hheader.2]
      simp [hone]
    | false =>
      refine ⟨bv, ?_⟩
      simp only [map_nil, List.nil_append, cons_append, isEmpty_nil, Bool.and_true, Bool.false_eq_true, if_false,
        fillModify_sep, List.append_nil]
  | cons v vs =>
    obtain ⟨⟨hv, hname⟩, hvs⟩ := List.forall_mem_cons.mp (hvals ▸ hp.vals)
    have hsame : ∀ w ∈ vs, w.Named ∧ CaseEq w.name v.name := fun w hw => ⟨(hvs w hw).1, (hvs w hw).2.trans hname.symm⟩
    simp only [hvals, cellsOf_append, cellsOf_cons, cellsOf_nil, List.append_nil, length_append, Group.length_cells,
      length_cons, length_map] at hlen hcap
    refine ⟨some v.name, ?_⟩
    simp only [map_cons, cons_append, isEmpty_cons, Bool.and_false, Bool.false_eq_true, if_false, append_assoc,
      List.nil_append]
    rw [fillModify_sep, fillModify_new hcode hcode (by omega) (by omega), hv.some, fillModify_values hsame hcode hv.no_nul (by omega)
      (by simp only [cellsOf_append, cellsOf_cons, cellsOf_nil, length_append, Group.length_cells, length_singleton,
        length_nil]; omega), fillModify_sep]
    simp

theorem fillModify_spec {ps : List Piece} (hps : ∀ p ∈ ps, p.Ok) (hlen : gs.length + (ps.flatMap Piece.group).length ≤ nmods)
    (hcap : (cellsOf (gs ++ ps.flatMap Piece.group)).length < cap) (bv : Option (List Octet)) :
    fillModify nmods (ps.flatMap Piece.done) M_SEP bv (filled nmods cap gs) =
      closeMods nmods (filled nmods cap (gs ++ ps.flatMap Piece.group)) := by
  induction ps generalizing gs bv with
  | nil => simp [fillModify]
  | cons p ps ih =>
    obtain ⟨hp, hps⟩ := List.forall_mem_cons.mp hps
    rw [flatMap_cons, length_append] at hlen
    rw [flatMap_cons, ← append_assoc] at hcap
    have hcap' : (cellsOf (gs ++ p.group)).length < cap := by
      rw [cellsOf_append, length_append] at hcap
      omega
    obtain ⟨bv', hpiece⟩ := @fillModify_piece nmods cap gs (ps.flatMap Piece.done) p hp (by omega) hcap' bv
    rw [flatMap_cons, hpiece, ih hps (by rw [length_append]; omega) hcap, flatMap_cons, append_assoc]

end

theorem modify_spec {ps : List Piece} (hps : ∀ p ∈ ps, p.Ok) (pre : List Slot) :
    ∃ o, modify (pre ++ ps.flatMap Piece.slots) pre.length = .ok o ∧
      listed o = some ((ps.flatMap Piece.group).map Group.listed) := by
  have hlen : (pre ++ ps.flatMap Piece.slots).length - pre.length = (ps.flatMap Piece.slots).length := by
    rw [length_append]
    omega
  obtain ⟨st, hst, hdone, hnmods⟩ := @pieces_spec
    ⟨[(slotAt (pre ++ ps.flatMap Piece.slots) (pre.length - 1), M_SEP)], (ps.flatMap Piece.slots).length, 0, true, false, none⟩
    ps hps rfl 0 (Nat.zero_add _).symm
  have hgroups : (ps.flatMap Piece.group).length ≤ (ps.map Piece.weight).sum := by
    clear hst hdone hnmods hlen hps
    induction ps with
    | nil => exact le_refl _
    | cons p ps ih =>
      rw [flatMap_cons, length_append, map_cons, sum_cons]
      exact Nat.add_le_add p.length_group_le ih
  have hcells : (cellsOf (ps.flatMap Piece.group)).length ≤ (ps.map Piece.weight).sum + (ps.flatMap Piece.slots).length := by
    clear hst hdone hnmods hlen hps hgroups
    induction ps with
    | nil => exact le_refl _
    | cons p ps ih =>
      have hp := p.length_cells_le
      rw [flatMap_cons, cellsOf_append, length_append, map_cons, sum_cons, flatMap_cons, length_append]
      omega
  rw [Nat.zero_add] at hnmods
  have hfill := @fillModify_spec st.nmods ((ps.flatMap Piece.slots).length + st.nmods + 1) [] ps hps (by rw [length_nil]; omega)
    (by rw [List.nil_append]; omega) none
  obtain ⟨o, ho, hclosed⟩ := @closeMods_filled st.nmods ((ps.flatMap Piece.slots).length + st.nmods + 1) (ps.flatMap Piece.group)
    (by omega) (by omega)
  refine ⟨o, ?_, hclosed.listed⟩
  rw [modify, hlen, drop_left, hst]
  simp only [bind, Except.bind]
  rw [hdone, reverse_append, reverse_reverse, allocMods_eq]
  exact hfill.trans ho

end LdifRecord
end Libreldap
end ReOpenLDAP
