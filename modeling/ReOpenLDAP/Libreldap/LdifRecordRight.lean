import ReOpenLDAP.Libreldap.LdifGrammar

/-!
# Libreldap.LdifRecordRight

Which change records become exactly the changes that they list.
-/

namespace ReOpenLDAP
namespace Libreldap
namespace LdifRecord

open Ascii List Option

structure Control where
  oid : List Octet
  criticality : Option Bool
  value : Option ValueSpec

/-- `mod-spec`; the values have the types of their lines. -/
structure Part where
  op : ModOp
  attr : List Octet
  vals : List Attr

inductive Change where
  | add (attrs : List Attr)
  | modify (parts : List Part)
  | delete
  | modrdn (newrdn : List Octet) (delold : Bool) (newsup : Option (List Octet))

structure Record where
  dn : List Octet
  controls : List Control
  change : Change

/-- A line for `word`. -/
def Keyword (a : Attr) (word : String) : Prop := CaseEq a.name (text word)

instance (a : Attr) (word : String) : Decidable (Keyword a word) := inferInstanceAs (Decidable (CaseEq _ _))

section

variable (fetchUrl : List Octet → Option (List Octet))

inductive CriticalityText : Option Bool → List Octet → Prop where
  | none : CriticalityText none []
  | some (n : ℕ) (b : Bool) (w : List Octet) : CaseEq w (text (if b then "true" else "false")) →
      CriticalityText (some b) (SP :: (List.replicate n SP ++ w))

inductive ValueText : Option ValueSpec → List Octet → Prop where
  | none : ValueText none []
  | some (fill : ℕ) (spec : ValueSpec) : spec.Ok fetchUrl → ValueText (some spec) (spec.mark ++ (List.replicate fill SP ++ spec.body))

/-- The string behind `control:`. -/
structure ControlText (c : Control) (s : List Octet) : Prop where
  ne_nil : c.oid ≠ []
  oid : ∀ d ∈ c.oid, isDigit d = true ∨ d = ascii '.'
  eq : ∃ crit val, s = c.oid ++ (crit ++ val) ∧ CriticalityText c.criticality crit ∧ ValueText fetchUrl c.value val
  /-- It stands in a line. -/
  clean : 0 ∉ s ∧ CR ∉ s
  int : s.length < 2 ^ 31

def partLines (p : Attr × Part) : List (Option Attr) := some p.1 :: (p.2.vals.map some ++ [none])

structure PartOk (p : Attr × Part) : Prop where
  word : Keyword p.1 p.2.op.word
  value : p.1.value = p.2.attr
  ne_nil : p.2.attr ≠ []
  no_nul : 0 ∉ p.2.attr
  /-- What is listed under a type are values of it. -/
  vals : ∀ v ∈ p.2.vals, CaseEq v.name p.2.attr

/-- The lines behind the controls. The first of them may be left out for the operation that is the default. -/
inductive ChangeLines (flags : Flags) : Change → List (Option Attr) → Prop where
  | add (ct : Attr) (attrs : List Attr) : Keyword ct "changetype" → CaseEq ct.value (text "add") → attrs ≠ [] →
      ChangeLines flags (.add attrs) (some ct :: attrs.map some)
  | content (a : Attr) (attrs : List Attr) : flags.defaultAdd = true → ¬ Keyword a "control" → ¬ Keyword a "changetype" →
      ChangeLines flags (.add (a :: attrs)) ((a :: attrs).map some)
  | modify (ct : Attr) (ps : List (Attr × Part)) : Keyword ct "changetype" → CaseEq ct.value (text "modify") → (∀ p ∈ ps, PartOk p) →
      ChangeLines flags (.modify (ps.map Prod.snd)) (some ct :: ps.flatMap partLines)
  | parts (ps : List (Attr × Part)) : flags.defaultAdd = false → ps ≠ [] → (∀ p ∈ ps, PartOk p) →
      ChangeLines flags (.modify (ps.map Prod.snd)) (ps.flatMap partLines)
  | delete (ct : Attr) : Keyword ct "changetype" → CaseEq ct.value (text "delete") → ChangeLines flags .delete [some ct]
  | modrdn (ct newrdn deleteoldrdn : Attr) (delold : Bool) (newsup : Option Attr) : Keyword ct "changetype" →
      (CaseEq ct.value (text "modrdn") ∨ CaseEq ct.value (text "moddn")) → Keyword newrdn "newrdn" → Keyword deleteoldrdn "deleteoldrdn" →
      deleteoldrdn.value = text (if delold then "1" else "0") → (∀ a ∈ newsup, Keyword a "newsuperior") →
      ChangeLines flags (.modrdn newrdn.value delold (newsup.map Attr.value))
        (some ct :: some newrdn :: some deleteoldrdn :: newsup.toList.map some)

/-- The lines of a record without comments; there may be a `version` in front. -/
structure Lists (flags : Flags) (r : Record) (lines : List (Option Attr)) : Prop where
  eq : ∃ (version : Option Attr) (dn : Attr) (controls : List Attr) (rest : List (Option Attr)),
    lines = version.toList.map some ++ some dn :: (controls.map some ++ rest) ∧ (∀ a ∈ version, Keyword a "version") ∧
    Keyword dn "dn" ∧ dn.value = r.dn ∧ controls.length = r.controls.length ∧
    (∀ p ∈ r.controls.zip controls, Keyword p.2 "control" ∧ ControlText fetchUrl p.1 p.2.value) ∧ ChangeLines flags r.change rest

def addMods (attrs : List Attr) : List Listed :=
  (byType (attrs.map fun a => (a.name, a.value))).map fun g => ⟨LDAP_MOD_ADD ||| LDAP_MOD_BVALUES, some g.1, some (g.2.map some)⟩

def partMod (p : Part) : Listed where
  op := p.op.code ||| LDAP_MOD_BVALUES
  type := some ((p.vals.head?.map Attr.name).getD p.attr)
  values := if p.vals = [] ∧ p.op.deferred = true then none else some (p.vals.map fun v => some v.value)

def Change.Asked : Change → LDIFRecord → Prop
  | add attrs, lr => lr.op = LDAP_REQ_ADD ∧ lr.mods.bind listed = some (addMods attrs)
  | modify parts, lr => lr.op = LDAP_REQ_MODIFY ∧ lr.mods.bind listed = some (parts.map partMod)
  | delete, lr => lr.op = LDAP_REQ_DELETE
  | modrdn newrdn delold newsup, lr =>
    lr.op = LDAP_REQ_MODDN ∧ lr.newrdn = some newrdn ∧ lr.delold = delold ∧ lr.newsup = newsup

def Control.ldapControl (c : Control) : LDAPControl := ⟨c.oid, c.criticality.getD false, c.value.bind (ValueSpec.value fetchUrl)⟩

structure Asks (flags : Flags) (r : Record) (lr : LDIFRecord) : Prop where
  dn : lr.dn = some r.dn
  ctrls : lr.ctrls = if flags.noControls then [] else r.controls.map (Control.ldapControl fetchUrl)
  change : r.change.Asked lr

def Change.Taken (flags : Flags) : Change → Prop
  | add _ => True
  | modify parts => flags.entriesOnly = false ∧ ∀ p ∈ parts, p.vals = [] → p.op.deferred = true
  | _ => flags.entriesOnly = false

def Control.Taken (c : Control) : Prop := c.value.isSome = true → c.criticality.isSome = true

structure Taken (flags : Flags) (r : Record) : Prop where
  one : r.controls.length ≤ 1
  controls : flags.noControls = false → ∀ c ∈ r.controls, c.Taken
  change : r.change.Taken flags

end

section

variable {a : List Octet} {w w' : String}

theorem no_nul_of_word (h : CaseEq a (text w)) (hw : 0 ∉ text w) : 0 ∉ a := by
  intro hmem
  have h0 : toLower 0 ∈ (text w).map toLower := by
    rw [← show a.map toLower = (text w).map toLower from h]
    exact List.mem_map_of_mem hmem
  obtain ⟨c, hc, heq⟩ := List.mem_map.mp h0
  exact hw ((octet_spec c).2.2.1 heq ▸ hc)

theorem isWord_eq (h : CaseEq a (text w)) (hw : 0 ∉ text w) : isWord (some a) w = true := by
  rw [isWord_some (no_nul_of_word h hw), decide_eq_true h]

theorem isWord_ne (h : CaseEq a (text w)) (hw : 0 ∉ text w) (hne : ¬ CaseEq (text w) (text w')) : isWord (some a) w' = false := by
  rw [isWord_some (no_nul_of_word h hw), decide_eq_false fun h' => hne (h.symm.trans h')]

end

/-! ## Controls -/

section

variable {fetchUrl : List Octet → Option (List Octet)}

theorem takeCriticality_word {b : Bool} {w : List Octet} (h : CaseEq w (text (if b then "true" else "false"))) (val : List Octet) :
    takeCriticality (w ++ val) = (b, val) := by
  have hlen := h.length_eq
  cases b with
  | true =>
    have htake : (w ++ val).take 4 = w := take_left' hlen
    have hdrop : (w ++ val).drop 4 = val := drop_left' hlen
    rw [takeCriticality, htake, hdrop]
    exact if_pos h
  | false =>
    have htake : (w ++ val).take 5 = w := take_left' hlen
    have hdrop : (w ++ val).drop 5 = val := drop_left' hlen
    have hno : ¬ CaseEq ((w ++ val).take 4) (text "true") := by
      intro htrue
      have hfour : (w ++ val).take 4 = w.take 4 := take_append_of_le_length (by rw [hlen]; decide)
      have hsame : CaseEq (w.take 4) ((text "false").take 4) := by
        rw [CaseEq, map_take, map_take, show w.map toLower = (text "false").map toLower from h]
      rw [hfour] at htrue
      exact absurd (hsame.symm.trans htrue) (by decide)
    rw [takeCriticality, if_neg hno, htake, hdrop]
    exact if_pos h

theorem ValueText.head {value : Option ValueSpec} {val : List Octet} (h : ValueText fetchUrl value val) : ∀ d ∈ val.head?, d = COLON := by
  intro d hd
  cases h with
  | none => cases hd
  | some fill spec hspec => cases spec <;> exact (Option.some.inj hd).symm

theorem ValueText.skip {value : Option ValueSpec} {val : List Octet} (h : ValueText fetchUrl value val) :
    val.dropWhile isSpace = val := by
  cases hval : val with
  | nil => rfl
  | cons d l =>
    obtain rfl := h.head d (by rw [hval]; rfl)
    exact dropWhile_cons_of_neg (by decide)

theorem skip_criticality {b : Bool} {crit : List Octet} (h : CriticalityText (some b) crit) : ∃ w crit', crit = SP :: crit' ∧
    CaseEq w (text (if b then "true" else "false")) ∧ ∀ val, (crit' ++ val).dropWhile isSpace = w ++ val := by
  cases h with
  | some n _ w hw =>
    refine ⟨w, List.replicate n SP ++ w, rfl, hw, fun val => ?_⟩
    rw [append_assoc, dropWhile_append_of_pos (by intro c hc; rw [eq_of_mem_replicate hc]; rfl)]
    cases w with
    | nil => exact absurd hw.length_eq (by cases b <;> decide)
    | cons c w =>
      have hc : toLower c = ascii 't' ∨ toLower c = ascii 'f' := by
        cases b with
        | true => exact .inl (List.cons.inj hw).1
        | false => exact .inr (List.cons.inj hw).1
      have hspace : isSpace c = false := by
        rw [← (octet_spec c).2.2.2]
        rcases hc with hc | hc <;> rw [hc] <;> rfl
      exact dropWhile_cons_of_neg (by simp [hspace])

theorem parseLdifControl_spec {c : Control} {s : List Octet} (h : ControlText fetchUrl c s) (hplain : ∀ spec ∈ c.value, spec.Plain)
    (pctrls : List LDAPControl) : parseLdifControl fetchUrl s pctrls =
      if c.value.isSome = true ∧ c.criticality.isSome = false then .error (.rc LDAP_PARAM_ERROR)
      else .ok (pctrls ++ [c.ldapControl fetchUrl]) := by
  obtain ⟨oid, criticality, value⟩ := c
  obtain ⟨crit, val, rfl, hcrit, hval⟩ := h.eq
  have hoid : ∀ d ∈ oid, (isDigit d || decide (d = ascii '.')) = true := by
    intro d hd
    rcases h.oid d hd with hd | hd <;> simp [hd]
  -- what is behind the OID is a space or `:`, if there is anything
  have hhead : ∀ d ∈ (crit ++ val).head?, (isDigit d || decide (d = ascii '.')) = false := by
    intro d hd
    cases hcrit with
    | none => rw [hval.head d hd]; rfl
    | some n b w hw => rw [← Option.some.inj hd]; rfl
  have htake : (oid ++ (crit ++ val)).takeWhile (fun d => isDigit d || decide (d = ascii '.')) = oid := by
    rw [takeWhile_append_of_pos hoid]
    cases hrest : crit ++ val with
    | nil => simp
    | cons d l => rw [takeWhile_cons_of_neg (by simp [hhead d (by rw [hrest]; rfl)]), List.append_nil]
  have hdrop : (oid ++ (crit ++ val)).dropWhile (fun d => isDigit d || decide (d = ascii '.')) = crit ++ val := by
    rw [dropWhile_append_of_pos hoid]
    cases hrest : crit ++ val with
    | nil => rfl
    | cons d l => rw [dropWhile_cons_of_neg (by simp [hhead d (by rw [hrest]; rfl)])]
  rw [parseLdifControl, cstr_eq h.clean.1]
  simp only [htake, hdrop, if_neg h.ne_nil]
  cases criticality with
  | none =>
    cases hcrit
    cases hval with
    | none =>
      have hnil : takeCriticality [] = (false, []) := by decide
      simp [hnil, Control.ldapControl]
    | some fill spec hspec =>
      obtain ⟨m, hm⟩ : ∃ m, spec.mark = COLON :: m := by cases spec <;> exact ⟨_, rfl⟩
      have hcolon : isSpace COLON = false := rfl
      rw [List.nil_append, hm, cons_append, if_pos ⟨cons_ne_nil _ _, hcolon⟩]
      simp
  | some b =>
    obtain ⟨w, crit', rfl, hw, hskip⟩ := skip_criticality hcrit
    have hspace : ¬ (SP :: crit' ++ val ≠ [] ∧ isSpace ((SP :: crit' ++ val).headD 0) = false) := by
      rintro ⟨-, hno⟩
      cases hno
    rw [if_neg hspace, cons_append, tail_cons, hskip val, takeCriticality_word hw]
    simp only [hval.skip]
    cases hval with
    | none => simp [Control.ldapControl]
    | some fill spec hspec =>
      obtain ⟨m, hm⟩ : ∃ m, spec.mark = COLON :: m := by cases spec <;> exact ⟨_, rfl⟩
      have ha : isAlnum (ascii 'a') = true ∧ ascii 'a' ≠ COLON ∧ isSpace (ascii 'a') = false := by decide
      have hname : IsName [ascii 'a'] := by
        refine ⟨fun c hc => ?_, cons_ne_nil _ _, fun c hc => ?_⟩
        · rw [← Option.some.inj hc]
          exact ha.1
        · rw [List.mem_singleton.mp hc]
          exact ha.2
      have hcr : CR ∉ List.replicate fill SP ++ spec.body := by
        intro hmem
        exact h.clean.2 (mem_append_right _ (mem_append_right _ (mem_append_right _ hmem)))
      have hfilter : (List.replicate fill SP ++ spec.body).filter (· ≠ CONTINUED_LINE_MARKER) = List.replicate fill SP ++ spec.body := by
        rw [filter_eq_self]
        intro c hc
        exact decide_eq_true fun heq => hcr ((show c = CR from heq) ▸ hc)
      have hlen : spec.body.length < 2 ^ 31 := by
        have hint := h.int
        simp only [length_append, length_cons, length_replicate] at hint
        omega
      have hparse := parse_spec hname hspec (hplain spec rfl) hfilter hlen
      have hne : spec.mark ++ (List.replicate fill SP ++ spec.body) ≠ [] := by simp [hm]
      have hhead : (spec.mark ++ (List.replicate fill SP ++ spec.body)).head? = some COLON := by simp [hm]
      rw [singleton_append] at hparse
      simp [hne, hhead, hparse, Control.ldapControl]

end

theorem slotAt_add (pre slots : List Slot) (k : ℕ) : slotAt (pre ++ slots) (pre.length + k) = slotAt slots k := by
  rw [slotAt, slotAt, getD_eq_getElem?_getD, List.getElem?_append_right (Nat.le_add_right ..), Nat.add_sub_cancel_left,
    getD_eq_getElem?_getD]

def NamesOk (ls : List (Option Attr)) : Prop := ∀ a, some a ∈ ls → a.name ≠ [] ∧ 0 ∉ a.name

theorem toSlot_named {a : Attr} (h : a.name ≠ [] ∧ 0 ∉ a.name) : (toSlot (some a)).Named := ⟨rfl, h.1, h.2⟩

theorem keyword_eq {a : Attr} {w : String} (h : Keyword a w) (hw : 0 ∉ text w) : isWord (toSlot (some a)).btype w = true :=
  isWord_eq h hw

theorem keyword_ne {a : Attr} {w : String} (h : ¬ Keyword a w) (ha : 0 ∉ a.name) : isWord (toSlot (some a)).btype w = false := by
  rw [toSlot, isWord_some ha]
  exact decide_eq_false h

section

variable {pre : List Slot} {attrs : List Attr}

theorem entry_listed (h : NamesOk (attrs.map some)) (pre : List Slot) :
    ∃ o, newEntry (pre ++ (attrs.map some).map toSlot) pre.length = .ok o ∧ listed o = some (addMods attrs) := by
  obtain ⟨o, ho, hlisted⟩ := @newEntry_spec ((attrs.map some).map toSlot) (by
    intro s hs
    obtain ⟨c, hc, rfl⟩ := List.mem_map.mp hs
    obtain ⟨a, -, rfl⟩ := List.mem_map.mp hc
    exact toSlot_named (h a hc)) pre
  refine ⟨o, ho, ?_⟩
  have hattrs : ((attrs.map some).map toSlot).map Slot.attr =
      (attrs.map fun a => (a.name, a.value)).map fun p : List Octet × List Octet => (p.1, some p.2) := by
    simp only [List.map_map]
    rfl
  rw [hlisted, hattrs, byType_map, List.map_map, addMods]
  rfl

def pieceOf (p : Attr × Part) : Piece := ⟨p.2.op, toSlot (some p.1), p.2.vals.map fun v => toSlot (some v), toSlot none⟩

theorem partLines_slots (p : Attr × Part) : (partLines p).map toSlot = (pieceOf p).slots := by
  simp [partLines, pieceOf, Piece.slots, List.map_map, Function.comp_def]

theorem parts_slots (ps : List (Attr × Part)) : (ps.flatMap partLines).map toSlot = (ps.map pieceOf).flatMap Piece.slots := by
  rw [map_flatMap, flatMap_map]
  simp only [partLines_slots]

theorem pieceOf_ok {p : Attr × Part} (h : PartOk p) (hnames : NamesOk (partLines p)) : (pieceOf p).Ok where
  word := ⟨p.1.name, rfl, (hnames p.1 (mem_cons_self ..)).2, h.word⟩
  some := rfl
  ne_nil := by
    rw [show (pieceOf p).attr = p.1.value from rfl, h.value]
    exact h.ne_nil
  no_nul := by
    rw [show (pieceOf p).attr = p.1.value from rfl, h.value]
    exact h.no_nul
  vals := by
    intro s hs
    obtain ⟨v, hv, rfl⟩ := List.mem_map.mp hs
    refine ⟨toSlot_named (hnames v (mem_cons_of_mem _ (mem_append_left _ (List.mem_map_of_mem hv)))), ?_⟩
    rw [show (pieceOf p).attr = p.1.value from rfl, h.value]
    exact h.vals v hv
  sep := rfl

def Part.kept (p : Part) : Bool := !p.vals.isEmpty || p.op.deferred

theorem group_listed {p : Attr × Part} (h : PartOk p) (hnames : NamesOk (partLines p)) :
    (pieceOf p).group.map Group.listed = if p.2.kept then [partMod p.2] else [] := by
  rw [Piece.group, pieceOf, Part.kept]
  cases hvals : p.2.vals with
  | nil =>
    cases hdef : p.2.op.deferred with
    | true =>
      have hcstr : cstr p.1.value = p.2.attr := by rw [h.value, cstr_eq h.no_nul]
      simp [Group.listed, partMod, hvals, hdef, toSlot, hcstr]
    | false => simp
  | cons v vs =>
    have hv := hnames v (mem_cons_of_mem _ (mem_append_left _ (List.mem_map_of_mem (by rw [hvals]; exact mem_cons_self ..))))
    simp [Group.listed, partMod, hvals, toSlot, cstr_eq hv.2, Function.comp_def]

theorem modify_listed {ps : List (Attr × Part)} (h : ∀ p ∈ ps, PartOk p) (hnames : NamesOk (ps.flatMap partLines)) (pre : List Slot) :
    ∃ o, modify (pre ++ (ps.flatMap partLines).map toSlot) pre.length = .ok o ∧
      listed o = some (((ps.map Prod.snd).filter Part.kept).map partMod) := by
  have hpart : ∀ p ∈ ps, NamesOk (partLines p) := fun p hp a ha => hnames a (mem_flatMap_of_mem hp ha)
  obtain ⟨o, ho, hlisted⟩ := @modify_spec (ps.map pieceOf) (by
    intro s hs
    obtain ⟨p, hp, rfl⟩ := List.mem_map.mp hs
    exact pieceOf_ok (h p hp) (hpart p hp)) pre
  refine ⟨o, by rw [parts_slots]; exact ho, ?_⟩
  rw [hlisted]
  clear ho hlisted hnames
  induction ps with
  | nil => rfl
  | cons p ps ih =>
    obtain ⟨hp, hps⟩ := List.forall_mem_cons.mp h
    obtain ⟨hn, hns⟩ := List.forall_mem_cons.mp hpart
    have hrest := Option.some.inj (ih hps hns)
    rw [map_cons, flatMap_cons, map_append, group_listed hp hn, hrest, map_cons]
    cases hkept : p.2.kept with
    | true => rw [filter_cons_of_pos hkept]; rfl
    | false => rw [filter_cons_of_neg (by simp [hkept])]; rfl

theorem kept_all {parts : List Part} (h : (parts.filter Part.kept).map partMod = parts.map partMod) :
    ∀ p ∈ parts, p.vals = [] → p.op.deferred = true := by
  have hlen := congrArg List.length h
  rw [length_map, length_map] at hlen
  intro p hp hvals
  have hkept : p.kept = true := List.length_filter_eq_length_iff.mp hlen p hp
  simpa [Part.kept, hvals] using hkept

theorem kept_of_taken {parts : List Part} (h : ∀ p ∈ parts, p.vals = [] → p.op.deferred = true) :
    parts.filter Part.kept = parts := by
  rw [filter_eq_self]
  intro p hp
  rw [Part.kept]
  cases hvals : p.vals with
  | nil => simp [h p hp hvals]
  | cons v vs => rfl

theorem modDn_lines {lr : LDIFRecord} (hlr : lr.newsup = none) (pre : List Slot) {newrdn deleteoldrdn : Attr} {delold : Bool} {newsup : Option Attr}
    (hnewrdn : Keyword newrdn "newrdn") (hdeleteoldrdn : Keyword deleteoldrdn "deleteoldrdn")
    (hdelold : deleteoldrdn.value = text (if delold then "1" else "0")) (hnewsup : ∀ a ∈ newsup, Keyword a "newsuperior") :
    modDn lr (pre ++ (some newrdn :: some deleteoldrdn :: newsup.toList.map some).map toSlot) pre.length =
      .ok { lr with newrdn := some newrdn.value, delold, op := LDAP_REQ_MODDN, newsup := newsup.map Attr.value } := by
  have hdel : (decide (((toSlot (some deleteoldrdn)).val.getD []).head? ≠ some (ascii '0'))) = delold := by
    rw [show (toSlot (some deleteoldrdn)).val = some deleteoldrdn.value from rfl, hdelold]
    cases delold <;> decide
  have hrdn : isWord (toSlot (some newrdn)).btype "newrdn" = true := keyword_eq hnewrdn (by decide)
  have hold : isWord (toSlot (some deleteoldrdn)).btype "deleteoldrdn" = true := keyword_eq hdeleteoldrdn (by decide)
  have hat := slotAt_add pre ((some newrdn :: some deleteoldrdn :: newsup.toList.map some).map toSlot)
  have hlen : ((some newrdn :: some deleteoldrdn :: newsup.toList.map some).map toSlot).length = newsup.toList.length + 2 := by simp
  generalize hslots : (some newrdn :: some deleteoldrdn :: newsup.toList.map some).map toSlot = slots at hat hlen ⊢
  have h0 : slotAt (pre ++ slots) pre.length = toSlot (some newrdn) := by rw [← hslots] at hat ⊢; exact hat 0
  have h1 : slotAt (pre ++ slots) (pre.length + 1) = toSlot (some deleteoldrdn) := by rw [← hslots] at hat ⊢; exact hat 1
  rw [modDn, length_append, hlen, h0, h1, hrdn, hold, if_neg (by omega), if_neg (by simp), if_neg (by omega), if_neg (by simp)]
  cases newsup with
  | none =>
    rw [if_pos (by simp), hdel, map_none, ← hlr]
    rfl
  | some a =>
    have h2 : slotAt (pre ++ slots) (pre.length + 2) = toSlot (some a) := by rw [← hslots] at hat ⊢; exact hat 2
    have hsup : isWord (toSlot (some a)).btype "newsuperior" = true := keyword_eq (hnewsup a rfl) (by decide)
    have hone : (some a).toList.length = 1 := rfl
    rw [if_neg (by omega), h2, hsup, if_neg (by simp), if_neg (by omega), hdel]
    rfl

/-- The lines from `slots[i]` on become a request, which is the change if it is taken. -/
def Carried (flags : Flags) (ch : Change) (dn : Option (List Octet)) (ctrls : List LDAPControl) (slots : List Slot) (i : ℕ) : Prop :=
  ∃ lr, change flags { emptyRecord with dn } ctrls slots i = .ok lr ∧ lr.dn = dn ∧ (ch.Taken flags → lr.ctrls = ctrls) ∧
    (ch.Asked lr ↔ ch.Taken flags)

theorem Change.Asked.op_ne {ch : Change} {lr : LDIFRecord} (h : ch.Asked lr) : lr.op ≠ emptyRecord.op := by
  cases ch with
  | delete => exact ne_of_eq_of_ne h (by decide)
  | _ => exact ne_of_eq_of_ne h.1 (by decide)

theorem Carried.skipped {flags : Flags} {ch : Change} {dn : Option (List Octet)} {ctrls : List LDAPControl} {slots : List Slot} {i : ℕ}
    (h : change flags { emptyRecord with dn } ctrls slots i = .ok { emptyRecord with dn }) (htaken : ¬ ch.Taken flags) :
    Carried flags ch dn ctrls slots i :=
  ⟨_, h, rfl, fun hyes => absurd hyes htaken, fun hasked => absurd rfl hasked.op_ne, fun hyes => absurd hyes htaken⟩

theorem change_spec {flags : Flags} {ch : Change} {ls : List (Option Attr)} (h : ChangeLines flags ch ls) (hnames : NamesOk ls)
    (pre : List Slot) (dn : Option (List Octet)) (ctrls : List LDAPControl) :
    Carried flags ch dn ctrls (pre ++ ls.map toSlot) pre.length := by
  have hct : 0 ∉ text "changetype" := by decide
  have hadd : 0 ∉ text "add" := by decide
  have hmodify : 0 ∉ text "modify" := by decide
  have hdelete : 0 ∉ text "delete" := by decide
  have hcons : ∀ (s : Slot) (slots : List Slot), pre ++ s :: slots = (pre ++ [s]) ++ slots := fun s slots => by simp
  have hlen : ∀ s : Slot, pre.length + 1 = (pre ++ [s]).length := fun s => by simp
  cases h with
  | add ct attrs hword hval hne =>
    obtain ⟨o, ho, hlisted⟩ := entry_listed (fun a ha => hnames a (mem_cons_of_mem _ ha)) (pre ++ [toSlot (some ct)])
    have hisadd : isWord (toSlot (some ct)).val "add" = true := isWord_eq hval hadd
    have hnot : isWord (toSlot (some ct)).val "modify" = false := isWord_ne hval hadd (by decide)
    refine ⟨{ emptyRecord with dn, ctrls, op := LDAP_REQ_ADD, mods := some o }, ?_, rfl, fun _ => rfl, ?_⟩
    · simp only [change, map_cons, slotAt_append, keyword_eq hword hct, if_true, hisadd, hnot, Bool.true_eq_false, and_false, if_false,
        Bool.false_eq_true]
      rw [hcons, hlen (toSlot (some ct)), ho]
      rfl
    · simp [Change.Asked, Change.Taken, hlisted]
  | content a attrs hdef hcontrol hchangetype =>
    obtain ⟨o, ho, hlisted⟩ := entry_listed hnames pre
    have hno : isWord (slotAt (pre ++ ((a :: attrs).map some).map toSlot) pre.length).btype "changetype" = false := by
      rw [map_cons, map_cons, slotAt_append rfl]
      exact keyword_ne hchangetype (hnames a (mem_cons_self ..)).2
    refine ⟨{ emptyRecord with dn, ctrls, op := LDAP_REQ_ADD, mods := some o }, ?_, rfl, fun _ => rfl, ?_⟩
    · simp only [change, hno, Bool.false_eq_true, if_false, hdef, if_true, ho]
      rfl
    · simp [Change.Asked, Change.Taken, hlisted]
  | modify ct ps hword hval hps =>
    obtain ⟨o, ho, hlisted⟩ := modify_listed hps (fun a ha => hnames a (mem_cons_of_mem _ ha)) (pre ++ [toSlot (some ct)])
    have hismod : isWord (toSlot (some ct)).val "modify" = true := isWord_eq hval hmodify
    have hnot : isWord (toSlot (some ct)).val "add" = false := isWord_ne hval hmodify (by decide)
    cases hflag : flags.entriesOnly with
    | true =>
      refine .skipped ?_ (by simp [Change.Taken, hflag])
      simp [change, slotAt_append, keyword_eq hword hct, hnot, hflag]
    | false =>
      refine ⟨{ emptyRecord with dn, ctrls, op := LDAP_REQ_MODIFY, mods := some o }, ?_, rfl, fun _ => rfl, ?_⟩
      · simp only [change, map_cons, slotAt_append, keyword_eq hword hct, if_true, hismod, hflag, Bool.false_eq_true, false_and, if_false]
        rw [hcons, hlen (toSlot (some ct)), ho]
        rfl
      · simp only [Change.Asked, Change.Taken, hflag, bind_some, hlisted, true_and, Option.some.injEq]
        exact ⟨kept_all, fun hall => by rw [kept_of_taken hall]⟩
  | parts ps hdef hne hps =>
    obtain ⟨o, ho, hlisted⟩ := modify_listed hps hnames pre
    have hno : isWord (slotAt (pre ++ (ps.flatMap partLines).map toSlot) pre.length).btype "changetype" = false := by
      obtain ⟨p, ps, rfl⟩ := exists_cons_of_ne_nil hne
      rw [flatMap_cons, partLines, cons_append, map_cons, slotAt_append rfl]
      refine keyword_ne (fun hword => ?_) (hnames p.1 (mem_cons_self ..)).2
      exact p.2.op.word_other.1 ((hps p (mem_cons_self ..)).word.symm.trans hword)
    cases hflag : flags.entriesOnly with
    | true =>
      refine .skipped ?_ (by simp [Change.Taken, hflag])
      simp [change, hno, hdef, hflag]
    | false =>
      refine ⟨{ emptyRecord with dn, ctrls, op := LDAP_REQ_MODIFY, mods := some o }, ?_, rfl, fun _ => rfl, ?_⟩
      · simp only [change, hno, hdef, hflag, Bool.false_eq_true, if_false, ho]
        rfl
      · simp only [Change.Asked, Change.Taken, hflag, bind_some, hlisted, true_and, Option.some.injEq]
        exact ⟨kept_all, fun hall => by rw [kept_of_taken hall]⟩
  | delete ct hword hval =>
    have hyes : isWord (toSlot (some ct)).val "delete" = true := isWord_eq hval hdelete
    have hother : ∀ w, ¬ CaseEq (text "delete") (text w) → isWord (toSlot (some ct)).val w = false := fun w hw => isWord_ne hval hdelete hw
    cases hflag : flags.entriesOnly with
    | true =>
      refine .skipped ?_ (by simp [Change.Taken, hflag])
      simp [change, slotAt_append, keyword_eq hword hct, hother "add" (by decide), hflag]
    | false =>
      refine ⟨{ emptyRecord with dn, ctrls, op := LDAP_REQ_DELETE }, ?_, rfl, fun _ => rfl, ?_⟩
      · simp [change, slotAt_append, keyword_eq hword hct, hother "add" (by decide), hother "modify" (by decide), hother "modrdn" (by decide),
          hother "moddn" (by decide), hother "rename" (by decide), hyes, hflag]
      · simp [Change.Asked, Change.Taken, hflag]
  | modrdn ct newrdn deleteoldrdn delold newsup hword hval hnewrdn hdeleteoldrdn hdelold hnewsup =>
    obtain ⟨w, hw, hw0, hyes⟩ : ∃ w, CaseEq ct.value (text w) ∧ 0 ∉ text w ∧ (w = "modrdn" ∨ w = "moddn") := by
      rcases hval with hval | hval
      · exact ⟨_, hval, by decide, .inl rfl⟩
      · exact ⟨_, hval, by decide, .inr rfl⟩
    have hisadd : isWord (toSlot (some ct)).val "add" = false := isWord_ne hw hw0 (by rcases hyes with rfl | rfl <;> decide)
    have hismod : isWord (toSlot (some ct)).val "modify" = false := isWord_ne hw hw0 (by rcases hyes with rfl | rfl <;> decide)
    have hisrdn : isWord (toSlot (some ct)).val "modrdn" = true ∨ isWord (toSlot (some ct)).val "moddn" = true ∨
        isWord (toSlot (some ct)).val "rename" = true := by
      rcases hyes with rfl | rfl
      · exact .inl (isWord_eq hw hw0)
      · exact .inr (.inl (isWord_eq hw hw0))
    cases hflag : flags.entriesOnly with
    | true =>
      refine .skipped ?_ (by simp [Change.Taken, hflag])
      simp [change, slotAt_append, keyword_eq hword hct, hisadd, hflag]
    | false =>
      have hmoddn := @modDn_lines { emptyRecord with dn, ctrls } rfl (pre ++ [toSlot (some ct)]) _ _ _ _ hnewrdn hdeleteoldrdn hdelold hnewsup
      refine ⟨{ emptyRecord with dn, ctrls, newrdn := some newrdn.value, delold, op := LDAP_REQ_MODDN, newsup := newsup.map Attr.value },
        ?_, rfl, fun _ => rfl, ?_⟩
      · simp only [change, map_cons, slotAt_append, keyword_eq hword hct, if_true, hisadd, hismod, hisrdn, hflag, Bool.false_eq_true,
          false_and, if_false]
        rw [hcons, hlen (toSlot (some ct)), ← map_cons, ← map_cons, hmoddn]
      · simp [Change.Asked, Change.Taken, hflag]

theorem addMods_count (attrs : List Attr) : ((addMods attrs).map fun l => (l.values.getD []).length).sum = attrs.length := by
  have hsum := length_byType (attrs.map fun a => (a.name, a.value))
  rw [length_map] at hsum
  rw [addMods, List.map_map, ← hsum]
  simp [Function.comp_def]

theorem change_control {flags : Flags} {ch : Change} {rest : List (Option Attr)} (h : ChangeLines flags ch rest) {a : Attr} {cs : List Attr}
    (ha : Keyword a "control") (hnames : NamesOk (some a :: (cs.map some ++ rest))) (pre : List Slot) (dn : Option (List Octet))
    (ctrls : List LDAPControl) {lr : LDIFRecord}
    (hlr : change flags { emptyRecord with dn } ctrls (pre ++ (some a :: (cs.map some ++ rest)).map toSlot) pre.length = .ok lr) :
    ¬ ch.Asked lr := by
  have hcontrol : 0 ∉ text "control" := by decide
  have hno : isWord (slotAt (pre ++ (some a :: (cs.map some ++ rest)).map toSlot) pre.length).btype "changetype" = false := by
    rw [map_cons, slotAt_append rfl]
    exact isWord_ne ha hcontrol (by decide)
  simp only [change, hno, Bool.false_eq_true, if_false] at hlr
  split at hlr
  · -- the lines are attributes of a new entry, which has more values then
    cases hentry : newEntry (pre ++ (some a :: (cs.map some ++ rest)).map toSlot) pre.length with
    | error e =>
      rw [hentry] at hlr
      cases hlr
    | ok o =>
      rw [hentry] at hlr
      obtain rfl := Except.ok.inj hlr
      have hmore : ∀ attrs new : List Attr, rest = new.map some ++ attrs.map some → listed o ≠ some (addMods attrs) := by
        rintro attrs new rfl hlisted
        have hlines : some a :: (cs.map some ++ (new.map some ++ attrs.map some)) = (a :: (cs ++ (new ++ attrs))).map some := by simp
        rw [hlines] at hnames hentry
        obtain ⟨o', ho', hlisted'⟩ := entry_listed hnames pre
        obtain rfl := Except.ok.inj (hentry.symm.trans ho')
        have hcount := addMods_count (a :: (cs ++ (new ++ attrs)))
        rw [← Option.some.inj (hlisted.symm.trans hlisted'), addMods_count, length_cons, length_append, length_append] at hcount
        omega
      cases h with
      | add ct attrs => exact fun hasked => hmore attrs [ct] rfl hasked.2
      | content b attrs => exact fun hasked => hmore (b :: attrs) [] rfl hasked.2
      | modify => exact fun hasked => absurd hasked.1 (by simp [LDAP_REQ_ADD, LDAP_REQ_MODIFY])
      | parts => exact fun hasked => absurd hasked.1 (by simp [LDAP_REQ_ADD, LDAP_REQ_MODIFY])
      | delete => exact fun hasked => absurd (show _ = _ from hasked) (by simp [LDAP_REQ_ADD, LDAP_REQ_DELETE])
      | modrdn => exact fun hasked => absurd hasked.1 (by simp [LDAP_REQ_ADD, LDAP_REQ_MODDN])
  · split at hlr
    · obtain rfl := Except.ok.inj hlr
      exact fun hasked => hasked.op_ne rfl
    · -- it says nothing that could be done
      have hother : ∀ op : ModOp, isWord (toSlot (some a)).btype op.word = false := by
        intro op
        refine isWord_ne ha hcontrol ?_
        intro heq
        exact op.word_other.2 heq.symm
      have hline : ∀ st : ModState, st.expectModop = true → modLine st (toSlot (some a)) = .error (.rc LDAP_PARAM_ERROR) := by
        intro st hst
        have hadd := hother .add
        have hreplace := hother .replace
        have hdelete := hother .delete
        have hincrement := hother .increment
        simp only [ModOp.word] at hadd hreplace hdelete hincrement
        simp [modLine, hst, modopLine, hadd, hreplace, hdelete, hincrement]
      rw [modify, drop_left, map_cons, foldlM_cons, hline _ rfl] at hlr
      cases hlr

end

/-! ## The record -/

section

variable {fetchUrl : List Octet → Option (List Octet)} {flags : Flags} {r : Record} {linenum : ℕ}

theorem foldl_afterLine (linenum : ℕ) {st : List Slot × Option (Option (List Octet) × ℕ) × Bool} (h : st.2.1.isSome = true) (ls : List Slot) :
    ls.foldl (afterLine linenum) st = (st.1 ++ ls, st.2) := by
  induction ls generalizing st with
  | nil => simp
  | cons s ls ih =>
    obtain ⟨before, dn, version⟩ := st
    have hstep : afterLine linenum (before, dn, version) s = (before ++ [s], dn, version) := by
      simp only [afterLine]
      rw [if_pos h]
    rw [foldl_cons, hstep, @ih (before ++ [s], dn, version) h]
    simp

theorem afterLines_dn (linenum : ℕ) {version : Option Attr} {dn : Attr} (hversion : ∀ a ∈ version, Keyword a "version")
    (hdn : Keyword dn "dn") (ls : List (Option Attr)) : ∃ v,
    ((version.toList.map some ++ some dn :: ls).map toSlot).foldl (afterLine linenum) ([], none, false) =
      ((version.toList.map some ++ [some dn]).map toSlot ++ ls.map toSlot, some (some dn.value, version.toList.length), v) := by
  have h0 : 0 ∉ text "version" ∧ 0 ∉ text "dn" := by decide
  have hstep : ∀ (before : List Slot) (v : Bool), afterLine linenum (before, none, v) (toSlot (some dn)) =
      (before ++ [toSlot (some dn)], some (some dn.value, before.length), v) := by
    intro before v
    have hyes : isWord (toSlot (some dn)).btype "dn" = true := keyword_eq hdn h0.2
    have hno : isWord (toSlot (some dn)).btype "version" = false := isWord_ne hdn h0.2 (by decide)
    simp only [afterLine, hyes, hno, isSome_none, Bool.false_eq_true, and_false, if_false, if_true]
    rfl
  cases version with
  | none =>
    refine ⟨false, ?_⟩
    rw [toList_none, map_nil, List.nil_append, map_cons, foldl_cons, hstep, foldl_afterLine linenum rfl]
    simp
  | some a =>
    have hno : isWord (toSlot (some a)).btype "dn" = false := isWord_ne (hversion a rfl) h0.1 (by decide)
    obtain ⟨v, hfirst⟩ : ∃ v, afterLine linenum ([], none, false) (toSlot (some a)) = ([toSlot (some a)], none, v) := by
      simp only [afterLine, hno, Bool.false_eq_true, if_false]
      split_ifs <;> exact ⟨_, rfl⟩
    refine ⟨v, ?_⟩
    rw [toList_some, map_singleton, singleton_append, map_cons, foldl_cons, hfirst, map_cons,
      foldl_cons, hstep, foldl_afterLine linenum rfl]
    simp

theorem ChangeLines.head {ch : Change} {rest : List (Option Attr)} (h : ChangeLines flags ch rest) :
    ∃ a rest', rest = some a :: rest' ∧ ¬ Keyword a "control" := by
  have hother : ∀ {a : Attr}, Keyword a "changetype" → ¬ Keyword a "control" :=
    fun hct hcontrol => absurd (hct.symm.trans hcontrol) (by decide)
  cases h with
  | add ct attrs hct => exact ⟨ct, _, rfl, hother hct⟩
  | content a attrs hdef hcontrol => exact ⟨a, _, rfl, hcontrol⟩
  | modify ct ps hct => exact ⟨ct, _, rfl, hother hct⟩
  | parts ps hdef hne hps =>
    obtain ⟨p, ps, rfl⟩ := exists_cons_of_ne_nil hne
    refine ⟨p.1, _, rfl, fun hcontrol => ?_⟩
    exact p.2.op.word_other.2 ((hps p (mem_cons_self ..)).word.symm.trans hcontrol)
  | delete ct hct => exact ⟨ct, _, rfl, hother hct⟩
  | modrdn ct _ _ _ _ hct => exact ⟨ct, _, rfl, hother hct⟩

/-- The text of a record that follows the grammar; there may be a blank line behind it. -/
structure Follows (fetchUrl : List Octet → Option (List Octet)) (flags : Flags) (items : List Item) (tail : List Octet) (r : Record) :
    Prop where
  lines : ∀ it ∈ items, it.Ok fetchUrl
  blank : ∀ c ∈ tail.head?, c = NL
  no_nul : 0 ∉ tail
  /-- The size of the buffer is an `int`. -/
  int : (bufferOf items).length < 2 ^ 31
  lists : Lists fetchUrl flags r (contents fetchUrl items)

structure PlainText (items : List Item) (r : Record) : Prop where
  lines : ∀ it ∈ items, it.Plain
  controls : ∀ c ∈ r.controls, ∀ spec ∈ c.value, spec.Plain

def fromDn (fetchUrl : List Octet → Option (List Octet)) (flags : Flags) (dn : Option (List Octet)) (slots : List Slot) (i : ℕ) :
    Except Error LDIFRecord :=
  if isWord (slotAt slots i).btype "control" then
    if slots.length ≤ i + 1 then .error (.rc LDAP_PARAM_ERROR)
    else
      match if flags.noControls then .ok [] else parseLdifControl fetchUrl ((slotAt slots i).val.getD []) [] with
      | .ok ctrls => change flags { emptyRecord with dn } ctrls slots (i + 1)
      | .error e => (change flags { emptyRecord with dn } [] slots (i + 1)).bind fun _ => .error e
  else change flags { emptyRecord with dn } [] slots i

theorem parse_fromDn {items : List Item} {tail : List Octet} (h : Follows fetchUrl flags items tail r) (hplain : ∀ it ∈ items, it.Plain)
    {version : Option Attr} {dn : Attr} {ls : List (Option Attr)}
    (hcontents : contents fetchUrl items = version.toList.map some ++ some dn :: ls)
    (hversion : ∀ a ∈ version, Keyword a "version") (hdn : Keyword dn "dn") (hls : ls ≠ []) (linenum : ℕ) :
    ldapParseLdifRecord fetchUrl flags linenum (bufferOf items ++ tail) = fromDn fetchUrl flags (some dn.value)
      ((version.toList.map some ++ [some dn]).map toSlot ++ ls.map toSlot) ((version.toList.map some ++ [some dn]).map toSlot).length := by
  have hnul : 0 ∉ bufferOf items ++ tail := by
    intro hmem
    rcases List.mem_append.mp hmem with hmem | hmem
    · obtain ⟨it, hit, hmem⟩ := List.mem_flatMap.mp hmem
      rcases List.mem_append.mp hmem with hmem | hmem
      · exact (h.lines it hit).no_nul hmem
      · exact absurd (List.mem_singleton.mp hmem) (by decide)
    · exact h.no_nul hmem
  have hcount := countlines_buffer h.lines h.blank
  obtain ⟨v, hlines⟩ := afterLines_dn linenum hversion hdn ls
  have hread := @readLines_items fetchUrl items tail linenum (ldifCountlines (bufferOf items ++ tail)) ([], none, false) h.lines hplain h.int
    h.blank (by rw [length_nil]; omega)
  rw [hcontents, hlines] at hread
  have hpos := List.length_pos_iff.mpr hls
  have hone : ¬ (v = true ∧ ((version.toList.map some ++ [some dn]).map toSlot ++ ls.map toSlot).length = 1) := by
    rintro ⟨-, hlen⟩
    simp only [length_append, length_map, length_singleton] at hlen
    omega
  have hpre : version.toList.length + 1 = ((version.toList.map some ++ [some dn]).map toSlot).length := by simp
  rw [ldapParseLdifRecord, cstr_eq hnul, hread]
  simp only [bind, Except.bind, if_neg hone]
  rw [show version.toList.length + 2 = version.toList.length + 1 + 1 from rfl, hpre]
  rfl

theorem Carried.asks {dn : List Octet} {cs : List Control} {ch : Change} {slots : List Slot} {i : ℕ} {ctrls : List LDAPControl}
    (h : Carried flags ch (some dn) ctrls slots i) (hone : cs.length ≤ 1) (htaken : flags.noControls = false → ∀ c ∈ cs, c.Taken)
    (hctrls : ctrls = if flags.noControls then [] else cs.map (Control.ldapControl fetchUrl)) :
    (∃ lr, change flags { emptyRecord with dn := some dn } ctrls slots i = .ok lr ∧ Asks fetchUrl flags ⟨dn, cs, ch⟩ lr) ↔
      Taken flags ⟨dn, cs, ch⟩ := by
  obtain ⟨lr, hlr, hdn, hsame, hasked⟩ := h
  constructor
  · rintro ⟨lr', hlr', hasks⟩
    obtain rfl := Except.ok.inj (hlr.symm.trans hlr')
    exact ⟨hone, htaken, hasked.mp hasks.change⟩
  · intro hyes
    exact ⟨lr, hlr, ⟨hdn, (hsame hyes.change).trans hctrls, hasked.mpr hyes.change⟩⟩

/-- `ldap_parse_ldif_record_x`: the record becomes its request if and only if it has one control at most, none of them has a value without
a criticality, no part that adds or increments is without values, and it is not to be skipped. -/
theorem ldap_parse_ldif_record {items : List Item} {tail : List Octet} (h : Follows fetchUrl flags items tail r) (hplain : PlainText items r)
    (linenum : ℕ) : (∃ lr, ldapParseLdifRecord fetchUrl flags linenum (bufferOf items ++ tail) = .ok lr ∧ Asks fetchUrl flags r lr) ↔
      Taken flags r := by
  obtain ⟨version, dn, controls, rest, hcontents, hversion, hdn, hvalue, hlen, hcontrols, hchange⟩ := h.lists.eq
  obtain ⟨a, rest', hrest, hhead⟩ := hchange.head
  have hne : controls.map some ++ rest ≠ [] := by simp [hrest]
  have hnames : NamesOk (controls.map some ++ rest) := by
    intro b hb
    refine contents_named h.lines ?_
    rw [hcontents]
    exact mem_append_right _ (mem_cons_of_mem _ hb)
  rw [parse_fromDn h hplain.lines hcontents hversion hdn hne, hvalue]
  generalize (version.toList.map some ++ [some dn]).map toSlot = pre
  obtain ⟨rdn, rcontrols, rchange⟩ := r
  simp only at hvalue hlen hcontrols hchange
  have hcontrol0 : 0 ∉ text "control" := by decide
  cases rcontrols with
  | nil =>
    obtain rfl := List.length_eq_zero_iff.mp hlen
    have hno : isWord (slotAt (pre ++ ([].map some ++ rest).map toSlot) pre.length).btype "control" = false := by
      rw [map_nil, List.nil_append, hrest, map_cons, slotAt_append rfl]
      exact keyword_ne hhead (hnames a (by rw [hrest]; exact mem_cons_self ..)).2
    simp only [fromDn, hno, Bool.false_eq_true, if_false]
    exact (change_spec hchange hnames pre (some rdn) []).asks (Nat.zero_le _) (fun _ c hc => absurd hc not_mem_nil) (by simp)
  | cons c rcontrols =>
    obtain ⟨b, controls, rfl⟩ : ∃ b controls', controls = b :: controls' := by
      cases controls with
      | nil => cases hlen
      | cons b controls => exact ⟨b, controls, rfl⟩
    obtain ⟨⟨hword, htext⟩, hcontrols⟩ := List.forall_mem_cons.mp (by rwa [zip_cons_cons] at hcontrols)
    have hsplit : pre ++ ((b :: controls).map some ++ rest).map toSlot =
        (pre ++ [toSlot (some b)]) ++ (controls.map some ++ rest).map toSlot := by simp
    have hat : slotAt (pre ++ ((b :: controls).map some ++ rest).map toSlot) pre.length = toSlot (some b) := by
      rw [map_cons, cons_append, map_cons, slotAt_append rfl]
    have hlong : ¬ (pre ++ ((b :: controls).map some ++ rest).map toSlot).length ≤ pre.length + 1 := by
      rw [hrest]
      simp only [length_append, length_map, length_cons]
      omega
    have hpre : pre.length + 1 = (pre ++ [toSlot (some b)]).length := by simp
    have hnames' : NamesOk (controls.map some ++ rest) := fun d hd => hnames d (mem_cons_of_mem _ hd)
    have hparse := parseLdifControl_spec htext (hplain.controls c (mem_cons_self ..)) []
    simp only [fromDn, hat, keyword_eq hword hcontrol0, if_true, if_neg hlong]
    rw [hsplit, hpre, show (toSlot (some b)).val.getD [] = b.value from rfl, hparse]
    cases rcontrols with
    | nil =>
      obtain rfl := List.length_eq_zero_iff.mp (Nat.succ.inj hlen)
      simp only [map_nil, List.nil_append] at hnames' ⊢
      cases hflag : flags.noControls with
      | true =>
        simp only [if_true]
        exact (change_spec hchange hnames' (pre ++ [toSlot (some b)]) (some rdn) []).asks (le_refl _)
          (fun hno => absurd (hflag.symm.trans hno) (by simp)) (by rw [hflag]; rfl)
      | false =>
        by_cases hrefused : c.value.isSome = true ∧ c.criticality.isSome = false
        · obtain ⟨lr, hlr, -⟩ := change_spec hchange hnames' (pre ++ [toSlot (some b)]) (some rdn) []
          simp only [Bool.false_eq_true, if_false, if_pos hrefused]
          constructor
          · rintro ⟨lr', hlr', -⟩
            generalize hresult : change flags _ [] _ _ = result at hlr'
            obtain rfl := hresult.symm.trans hlr
            cases hlr'
          · intro htaken
            have htrue := htaken.controls hflag c (mem_cons_self ..) hrefused.1
            rw [hrefused.2] at htrue
            cases htrue
        · simp only [Bool.false_eq_true, if_false, if_neg hrefused]
          refine (change_spec hchange hnames' (pre ++ [toSlot (some b)]) (some rdn) [c.ldapControl fetchUrl]).asks (le_refl _)
            (fun _ d hd hvalue => ?_) (by rw [hflag]; rfl)
          obtain rfl := List.mem_singleton.mp hd
          by_contra hno
          exact hrefused ⟨hvalue, Bool.eq_false_of_not_eq_true hno⟩
    | cons c' rcontrols =>
      obtain ⟨b', controls, rfl⟩ : ∃ b' controls', controls = b' :: controls' := by
        cases controls with
        | nil => cases hlen
        | cons b' controls => exact ⟨b', controls, rfl⟩
      obtain ⟨⟨hword', -⟩, -⟩ := List.forall_mem_cons.mp (by rwa [zip_cons_cons] at hcontrols)
      constructor
      · rintro ⟨lr, hlr, hasks⟩
        split at hlr
        · exact absurd hasks.change (change_control hchange hword' hnames' (pre ++ [toSlot (some b)]) (some rdn) _ hlr)
        · -- the error of the first control stays
          generalize change flags { emptyRecord with dn := some rdn } [] _ _ = result at hlr
          cases result <;> cases hlr
      · intro htaken
        exact absurd htaken.one (by simp)

end

def lineOf (name value : String) : Item := .attr ⟨text name, 1, .safe (text value), text name ++ COLON :: SP :: text value⟩

theorem Folded.refl {raw : List Octet} (h : ∀ c ∈ raw, c ≠ NL ∧ c ≠ CR ∧ c ≠ 0) : Folded raw raw := by
  induction raw with
  | nil => exact .nil
  | cons c raw ih =>
    obtain ⟨⟨hnl, hcr, hc⟩, hraw⟩ := List.forall_mem_cons.mp h
    exact .cons hnl hcr hc (ih hraw)

def lineText (name value : List Octet) : Bool :=
  name.head?.all isAlnum && !name.isEmpty && name.all (fun c => c != COLON && !isSpace c && c != 0) &&
    value.head?.all (fun c => !isSpace c && c != COLON && c != LESS) && value.all fun c => c != NL && c != CR && c != 0

theorem lineOf_ok (fetchUrl : List Octet → Option (List Octet)) {name value : String} (h : lineText (text name) (text value) = true) :
    (lineOf name value).Ok fetchUrl ∧ (lineOf name value).Plain := by
  obtain ⟨hhead, hne, hname, hfirst, hvalue⟩ : (∀ c ∈ (text name).head?, isAlnum c = true) ∧ text name ≠ [] ∧
      (∀ c ∈ text name, c ≠ COLON ∧ isSpace c = false ∧ c ≠ 0) ∧
      (∀ c ∈ (text value).head?, isSpace c = false ∧ c ≠ COLON ∧ c ≠ LESS) ∧ ∀ c ∈ text value, c ≠ NL ∧ c ≠ CR ∧ c ≠ 0 := by
    simpa [lineText, and_assoc, Option.all_eq_true] using h
  have hspace : isSpace SP = true ∧ isSpace NL = true ∧ isSpace CR = true := by decide
  have hsep : ∀ c ∈ [COLON, SP], c ≠ NL ∧ c ≠ CR ∧ c ≠ 0 := by simp [COLON, SP, NL, CR]
  have hclean : ∀ c ∈ text name ++ COLON :: SP :: text value, c ≠ NL ∧ c ≠ CR ∧ c ≠ 0 := by
    intro c hc
    rcases List.mem_append.mp hc with hc | hc
    · obtain ⟨-, hspc, h0⟩ := hname c hc
      refine ⟨?_, ?_, h0⟩
      · rintro rfl
        rw [hspace.2.1] at hspc
        cases hspc
      · rintro rfl
        rw [hspace.2.2] at hspc
        cases hspc
    · rcases List.mem_append.mp (show c ∈ [COLON, SP] ++ text value from hc) with hc | hc
      · exact hsep c hc
      · exact hvalue c hc
  obtain ⟨c, name', hcons⟩ := exists_cons_of_ne_nil hne
  have hraw : AttrLine.raw ⟨text name, 1, .safe (text value), text name ++ COLON :: SP :: text value⟩ =
      text name ++ COLON :: SP :: text value := rfl
  refine ⟨⟨⟨hhead, hne, fun d hd => ⟨(hname d hd).1, (hname d hd).2.1⟩⟩, fun d hd => ⟨?_, (hfirst d hd).2⟩,
    c, name' ++ COLON :: SP :: text value, name' ++ COLON :: SP :: text value, ?_, ?_, ?_, Folded.refl ?_⟩, fun d hd => (hfirst d hd).1, ?_⟩
  · rintro rfl
    have hno := (hfirst SP hd).1
    rw [hspace.1] at hno
    cases hno
  · rw [hraw, hcons, cons_append]
  · rw [hcons, cons_append]
  · exact (hclean c (by rw [hcons]; exact mem_cons_self ..)).2.2
  · intro d hd
    exact hclean d (by rw [hcons]; exact mem_cons_of_mem _ hd)
  · exact ⟨SP :: text value, by simp [ValueSpec.mark]⟩

def noUrl : List Octet → Option (List Octet) := fun _ => none

def noFlags : Flags := ⟨false, false, false⟩

def sepItem : Item := .sep [ascii '-']

theorem sepItem_ok : sepItem.Ok noUrl ∧ sepItem.Plain := ⟨⟨[], rfl, .nil⟩, rfl⟩

def attrOf (name value : String) : Attr := ⟨text name, text value, false⟩

def modifyItems : List Item :=
  [lineOf "dn" "cn=a", lineOf "control" "1.2.3 true", lineOf "changetype" "modify", lineOf "delete" "sn", sepItem, lineOf "add" "cn",
    lineOf "cn" "b", lineOf "CN" "c", sepItem]

def modifyRecord : Record where
  dn := text "cn=a"
  controls := [⟨text "1.2.3", some true, none⟩]
  change := .modify [⟨.delete, text "sn", []⟩, ⟨.add, text "cn", [attrOf "cn" "b", attrOf "CN" "c"]⟩]

theorem modifyItems_ok : ∀ it ∈ modifyItems, it.Ok noUrl ∧ it.Plain := by
  intro it hit
  simp only [modifyItems, mem_cons, not_mem_nil, or_false] at hit
  rcases hit with rfl | rfl | rfl | rfl | rfl | rfl | rfl | rfl | rfl
  case inr.inr.inr.inr.inl => exact sepItem_ok
  case inr.inr.inr.inr.inr.inr.inr.inr => exact sepItem_ok
  all_goals
    refine lineOf_ok noUrl ?_
    rw [text_ofList, text_ofList]
    rfl

theorem oid_of_all {s : List Octet} (h : (s.all fun d => isDigit d || d = ascii '.') = true) :
    ∀ d ∈ s, isDigit d = true ∨ d = ascii '.' := by simpa using h

theorem modifyItems_follow : Follows noUrl noFlags modifyItems [] modifyRecord where
  lines it hit := (modifyItems_ok it hit).1
  blank c hc := by cases hc
  no_nul := not_mem_nil
  int := by decide
  lists := by
    have hcontrol : ControlText noUrl ⟨text "1.2.3", some true, none⟩ (text "1.2.3 true") :=
      ⟨by decide, oid_of_all (by decide), ⟨text " true", [], by decide, .some 0 true (text "true") (by decide), .none⟩,
        by decide, by decide⟩
    refine ⟨none, attrOf "dn" "cn=a", [attrOf "control" "1.2.3 true"], _, rfl, by simp, by decide, rfl, rfl, ?_, ?_⟩
    · intro p hp
      obtain rfl := List.mem_singleton.mp hp
      exact ⟨by decide, hcontrol⟩
    · refine .modify (attrOf "changetype" "modify") [(attrOf "delete" "sn", ⟨.delete, text "sn", []⟩),
        (attrOf "add" "cn", ⟨.add, text "cn", [attrOf "cn" "b", attrOf "CN" "c"]⟩)] (by decide) (by decide) ?_
      intro p hp
      simp only [mem_cons, not_mem_nil, or_false] at hp
      rcases hp with rfl | rfl
      · exact ⟨by decide, rfl, by decide, by decide, fun v hv => by cases hv⟩
      · refine ⟨by decide, rfl, by decide, by decide, fun v hv => ?_⟩
        simp only [mem_cons, not_mem_nil, or_false] at hv
        rcases hv with rfl | rfl <;> decide

theorem ldap_parse_ldif_record_modify : Taken noFlags modifyRecord ∧
    ∃ lr, ldapParseLdifRecord noUrl noFlags 1 (bufferOf modifyItems) = .ok lr ∧ Asks noUrl noFlags modifyRecord lr := by
  have htaken : Taken noFlags modifyRecord := by
    refine ⟨le_refl _, fun _ c hc => ?_, rfl, fun p hp hvals => ?_⟩
    · obtain rfl := List.mem_singleton.mp hc
      exact fun _ => rfl
    · simp only [mem_cons, not_mem_nil, or_false] at hp
      rcases hp with rfl | rfl
      · rfl
      · cases hvals
  refine ⟨htaken, ?_⟩
  have hparse := (ldap_parse_ldif_record modifyItems_follow ⟨fun it hit => (modifyItems_ok it hit).2, by
    intro c hc spec hspec
    obtain rfl := List.mem_singleton.mp hc
    cases hspec⟩ 1).mpr htaken
  rwa [List.append_nil] at hparse

def deleteItems : List Item := [lineOf "dn" "cn=a", lineOf "control" "1.2", lineOf "control" "1.3", lineOf "changetype" "delete"]

def deleteRecord : Record := ⟨text "cn=a", [⟨text "1.2", none, none⟩, ⟨text "1.3", none, none⟩], .delete⟩

theorem deleteItems_ok : ∀ it ∈ deleteItems, it.Ok noUrl ∧ it.Plain := by
  intro it hit
  simp only [deleteItems, mem_cons, not_mem_nil, or_false] at hit
  rcases hit with rfl | rfl | rfl | rfl
  all_goals
    refine lineOf_ok noUrl ?_
    rw [text_ofList, text_ofList]
    rfl

theorem deleteItems_follow : Follows noUrl noFlags deleteItems [] deleteRecord where
  lines it hit := (deleteItems_ok it hit).1
  blank c hc := by cases hc
  no_nul := not_mem_nil
  int := by decide
  lists := by
    have hcontrol : ∀ oid ∈ ["1.2", "1.3"], ControlText noUrl ⟨text oid, none, none⟩ (text oid) := by
      intro oid hoid
      simp only [mem_cons, not_mem_nil, or_false] at hoid
      rcases hoid with rfl | rfl
      · exact ⟨by decide, oid_of_all (by decide), ⟨[], [], by decide, .none, .none⟩, by decide, by decide⟩
      · exact ⟨by decide, oid_of_all (by decide), ⟨[], [], by decide, .none, .none⟩, by decide, by decide⟩
    refine ⟨none, attrOf "dn" "cn=a", [attrOf "control" "1.2", attrOf "control" "1.3"], _, rfl, by simp, by decide, rfl, rfl,
      ?_, .delete (attrOf "changetype" "delete") (by decide) (by decide)⟩
    intro p hp
    simp only [deleteRecord, zip_cons_cons, zip_nil_right, mem_cons, not_mem_nil, or_false] at hp
    rcases hp with rfl | rfl
    · exact ⟨by decide, hcontrol "1.2" (by simp)⟩
    · exact ⟨by decide, hcontrol "1.3" (by simp)⟩

/-- The record follows the grammar, and is refused. -/
theorem two_controls_refused : Follows noUrl noFlags deleteItems [] deleteRecord ∧ PlainText deleteItems deleteRecord ∧
    ldapParseLdifRecord noUrl noFlags 1 (bufferOf deleteItems) = .error (.rc LDAP_PARAM_ERROR) := by
  refine ⟨deleteItems_follow, ⟨fun it hit => (deleteItems_ok it hit).2, ?_⟩, ?_⟩
  · intro c hc spec hspec
    simp only [deleteRecord, mem_cons, not_mem_nil, or_false] at hc
    rcases hc with rfl | rfl <;> cases hspec
  · have hparse := @parse_fromDn noUrl noFlags deleteRecord deleteItems [] deleteItems_follow (fun it hit => (deleteItems_ok it hit).2)
      none (attrOf "dn" "cn=a") [some (attrOf "control" "1.2"), some (attrOf "control" "1.3"), some (attrOf "changetype" "delete")]
      rfl (by simp) (by decide) (by simp) 1
    rw [List.append_nil] at hparse
    rw [hparse]
    decide +kernel

end LdifRecord
end Libreldap
end ReOpenLDAP
