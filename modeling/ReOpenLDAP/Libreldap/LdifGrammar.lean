import ReOpenLDAP.Libreldap.LdifLine
import ReOpenLDAP.Libreldap.LdifModify

/-!
# Libreldap.LdifGrammar

The lines of a record, as the grammar has them, and how they are read.
-/

namespace ReOpenLDAP
namespace Libreldap
namespace LdifRecord

open Ascii List

/-- The text of a line: it may be folded anywhere, and there may be a `'\\r'` in front of the `'\\n'`. -/
inductive Folded : (raw t : List Octet) → Prop where
  | nil : Folded [] []
  | cr : Folded [] [CR]
  | cons {c : Octet} {raw t : List Octet} : c ≠ NL → c ≠ CR → c ≠ 0 → Folded raw t → Folded (c :: raw) (c :: t)
  | fold {raw t : List Octet} : Folded raw t → Folded raw (NL :: SP :: t)
  | foldCr {raw t : List Octet} : Folded raw t → Folded raw (CR :: NL :: SP :: t)

def Starts (rest : List Octet) : Prop := rest.head? ≠ some SP ∧ rest.head? ≠ some CR

theorem filter_cons_line {c : Octet} (hc : c ≠ CR) (l : List Octet) :
    (c :: l).filter (· ≠ CONTINUED_LINE_MARKER) = c :: l.filter (· ≠ CONTINUED_LINE_MARKER) :=
  filter_cons_of_pos (decide_eq_true (p := c ≠ CONTINUED_LINE_MARKER) hc)

namespace Folded

variable {raw t pre rest : List Octet}

theorem no_nul (h : Folded raw t) : 0 ∉ t := by
  have hctl : (0 : Octet) ≠ NL ∧ (0 : Octet) ≠ SP ∧ (0 : Octet) ≠ CR := by decide
  induction h with
  | nil => exact not_mem_nil
  | cr => simp [hctl]
  | cons hnl hcr hc h ih => simp [Ne.symm hc, ih]
  | fold h ih => simp [hctl, ih]
  | foldCr h ih => simp [hctl, ih]

theorem of_append (hpre : NL ∉ pre) (hcr : CR ∉ pre) (h : Folded raw (pre ++ t)) : ∃ raw', raw = pre ++ raw' ∧ Folded raw' t := by
  induction pre generalizing raw with
  | nil => exact ⟨raw, rfl, h⟩
  | cons c pre ih =>
    obtain ⟨hcnl, hpre⟩ := ne_and_not_mem_of_not_mem_cons hpre
    obtain ⟨hccr, hcr⟩ := ne_and_not_mem_of_not_mem_cons hcr
    rw [cons_append] at h
    generalize hl : pre ++ t = l at h
    cases h with
    | cr => exact absurd rfl hccr
    | cons _ _ _ h =>
      subst hl
      obtain ⟨raw', rfl, hraw⟩ := ih hpre hcr h
      exact ⟨raw', rfl, hraw⟩
    | fold h => exact absurd rfl hcnl
    | foldCr h => exact absurd rfl hccr

theorem raw_no_nul (h : Folded raw t) : 0 ∉ raw := by
  induction h with
  | nil => exact not_mem_nil
  | cr => exact not_mem_nil
  | cons hnl hcr hc h ih => exact not_mem_cons_of_ne_of_not_mem (Ne.symm hc) ih
  | fold h ih => exact ih
  | foldCr h ih => exact ih

theorem takeLine (h : Folded raw t) (hrest : Starts rest) :
    ∃ line, takeLine (t ++ NL :: rest) = (line, some rest) ∧ line.filter (· ≠ CONTINUED_LINE_MARKER) = raw := by
  have hend := takeLine_end hrest.1 hrest.2
  have hcrnl : CR ≠ NL := by decide
  induction h with
  | nil => exact ⟨[], hend, rfl⟩
  | cr =>
    refine ⟨[CR], ?_, rfl⟩
    rw [singleton_append, takeLine_cons hcrnl, hend]
  | cons hnl hcr hc h ih =>
    obtain ⟨line, htake, hfilter⟩ := ih
    refine ⟨_ :: line, by rw [cons_append, takeLine_cons hnl, htake], ?_⟩
    rw [filter_cons_line hcr, hfilter]
  | fold h ih =>
    obtain ⟨line, htake, hfilter⟩ := ih
    exact ⟨CR :: CR :: line, by rw [cons_append, cons_append, takeLine_continued, htake]; rfl, hfilter⟩
  | foldCr h ih =>
    obtain ⟨line, htake, hfilter⟩ := ih
    refine ⟨CR :: CR :: CR :: line, ?_, hfilter⟩
    rw [cons_append, takeLine_cons hcrnl, cons_append, cons_append, takeLine_continued, htake]
    rfl

theorem countlines (h : Folded raw t) (hrest : Starts rest) : ldifCountlines (t ++ NL :: rest) = ldifCountlines rest + 1 := by
  have hend : ldifCountlines (NL :: rest) = ldifCountlines rest + 1 := by
    rw [ldifCountlines, if_pos ⟨rfl, hrest.1⟩, Nat.add_comm]
  have hcrnl : CR ≠ NL := by decide
  have hspnl : SP ≠ NL := by decide
  induction h with
  | nil => exact hend
  | cr => rw [singleton_append, ldifCountlines, if_neg (fun h => hcrnl h.1), hend, Nat.zero_add]
  | cons hnl hcr hc h ih => rw [cons_append, ldifCountlines, if_neg (fun h => hnl h.1), ih, Nat.zero_add]
  | fold h ih =>
    rw [cons_append, cons_append, ldifCountlines, if_neg (by simp), ldifCountlines, if_neg (fun h => hspnl h.1), ih, Nat.zero_add,
      Nat.zero_add]
  | foldCr h ih =>
    rw [cons_append, ldifCountlines, if_neg (fun h => hcrnl h.1), cons_append, cons_append, ldifCountlines,
      if_neg (by simp), ldifCountlines, if_neg (fun h => hspnl h.1), ih, Nat.zero_add, Nat.zero_add, Nat.zero_add]

end Folded

/-- `value-spec`; what is in base 64 is written there decoded. -/
inductive ValueSpec where
  | safe (s : List Octet)
  | base64 (v : List Octet)
  | url (u : List Octet)

namespace ValueSpec

def mark : ValueSpec → List Octet
  | safe _ => [COLON]
  | base64 _ => [COLON, COLON]
  | url _ => [COLON, LESS]

def body : ValueSpec → List Octet
  | safe s => s
  | base64 v => encodeB64 v
  | url u => u

def fetched : ValueSpec → Bool
  | url _ => true
  | _ => false

variable (fetchUrl : List Octet → Option (List Octet))

def value : ValueSpec → Option (List Octet)
  | safe s => some s
  | base64 v => some v
  | url u => fetchUrl u

/-- A safe string does not start with a space, `:` or `<`. A URL is not empty, and can be fetched. -/
def Ok : ValueSpec → Prop
  | safe s => ∀ c ∈ s.head?, c ≠ SP ∧ c ≠ COLON ∧ c ≠ LESS
  | base64 _ => True
  | url u => u ≠ [] ∧ (∀ c ∈ u.head?, c ≠ SP) ∧ (fetchUrl u).isSome

/-- It does not start with any other white space, and what is in base 64 is not empty. -/
def Plain : ValueSpec → Prop
  | safe s => ∀ c ∈ s.head?, isSpace c = false
  | base64 v => v ≠ []
  | url u => ∀ c ∈ u.head?, isSpace c = false

instance (spec : ValueSpec) : Decidable (Plain spec) := by
  cases spec <;> unfold Plain <;> infer_instance

end ValueSpec

theorem dropWhile_filter {p q : Octet → Bool} (h : ∀ c, q c = false → p c = true) (l : List Octet) :
    (l.dropWhile p).filter q = (l.filter q).dropWhile p := by
  induction l with
  | nil => rfl
  | cons c l ih =>
    cases hp : p c with
    | true =>
      rw [dropWhile_cons_of_pos hp, ih]
      cases hq : q c with
      | true => rw [filter_cons_of_pos hq, dropWhile_cons_of_pos hp]
      | false => rw [filter_cons_of_neg (by simp [hq])]
    | false =>
      have hq : q c = true := by
        by_contra hq
        rw [h c (Bool.eq_false_of_not_eq_true hq)] at hp
        cases hp
      rw [dropWhile_cons_of_neg (by simp [hp]), filter_cons_of_pos hq, dropWhile_cons_of_neg (by simp [hp])]

theorem skip_fill {l body : List Octet} {fill : ℕ} (hl : l.filter (· ≠ CONTINUED_LINE_MARKER) = List.replicate fill SP ++ body)
    (hbody : ∀ c ∈ body.head?, isSpace c = false) : (l.dropWhile isSpace).filter (· ≠ CONTINUED_LINE_MARKER) = body := by
  have hmark : ∀ c : Octet, decide (c ≠ CONTINUED_LINE_MARKER) = false → isSpace c = true := by
    intro c hc
    obtain rfl : c = CONTINUED_LINE_MARKER := by simpa using hc
    rfl
  rw [dropWhile_filter hmark, hl, dropWhile_append_of_pos (by intro c hc; rw [eq_of_mem_replicate hc]; rfl)]
  cases body with
  | nil => rfl
  | cons c body => exact dropWhile_cons_of_neg (by simp [hbody c rfl])

theorem parse_spec {fetchUrl : List Octet → Option (List Octet)} {name l : List Octet} {spec : ValueSpec} {fill : ℕ} (hname : IsName name)
    (hok : spec.Ok fetchUrl) (hplain : spec.Plain)
    (hl : l.filter (· ≠ CONTINUED_LINE_MARKER) = List.replicate fill SP ++ spec.body) (hint : spec.body.length < 2 ^ 31) :
    ldifParseLine2 fetchUrl (name ++ (spec.mark ++ l)) = some ⟨name, spec.value fetchUrl, spec.fetched, true⟩ := by
  obtain ⟨m, hm⟩ : ∃ m, spec.mark = COLON :: m := by cases spec <;> exact ⟨_, rfl⟩
  have hskip : (name ++ (spec.mark ++ l)).dropWhile isSpace = name ++ (spec.mark ++ l) := by
    obtain ⟨c, name', rfl⟩ := exists_cons_of_ne_nil hname.ne_nil
    exact dropWhile_cons_of_neg (by simp [not_space_of_alnum (hname.head c rfl)])
  have hcolon : ∀ c ∈ name, decide (c ≠ COLON) = true := fun c hc => decide_eq_true (hname.plain c hc).1
  have htake : (name ++ (spec.mark ++ l)).takeWhile (· ≠ COLON) = name := by
    rw [takeWhile_append_of_pos hcolon, hm, cons_append, takeWhile_cons_of_neg (by simp), List.append_nil]
  have hdrop : (name ++ (spec.mark ++ l)).dropWhile (· ≠ COLON) = spec.mark ++ l := by
    rw [dropWhile_append_of_pos hcolon, hm, cons_append, dropWhile_cons_of_neg (by simp)]
  have hne : spec.mark ++ l ≠ [] := by rw [hm]; exact cons_ne_nil _ _
  rw [ldifParseLine2]
  simp only [hskip, htake, hdrop, trimType_name hname, if_neg hne]
  cases spec with
  | safe s =>
    -- neither the space nor a mark in front of the string is one of the two
    have hhead : ∀ c ∈ l.head?, c ≠ LESS ∧ c ≠ COLON := by
      intro c hc
      obtain ⟨l', rfl⟩ : ∃ l', l = c :: l' := by
        cases l with
        | nil => cases hc
        | cons d l' =>
          obtain rfl := Option.some.inj hc
          exact ⟨l', rfl⟩
      by_cases hcr : c = CR
      · subst hcr
        decide
      · rw [filter_cons_line hcr] at hl
        cases fill with
        | zero =>
          have hs := hok c (by rw [show s = _ from hl.symm]; rfl)
          exact ⟨hs.2.2, hs.2.1⟩
        | succ n =>
          rw [replicate_succ, cons_append] at hl
          obtain rfl := (List.cons.inj hl).1
          decide
    have hnone : ¬ l.head? = some LESS ∧ ¬ l.head? = some COLON := ⟨fun h => (hhead _ h).1 rfl, fun h => (hhead _ h).2 rfl⟩
    simp only [ValueSpec.mark, singleton_append, tail_cons, hnone.1, hnone.2, or_self, if_false, skip_fill hl hplain]
    rw [intLength_eq hint]
    rfl
  | base64 v =>
    have hbody : ∀ c ∈ (encodeB64 v).head?, isSpace c = false :=
      fun c hc => not_space_of_graph (encodeB64_graph v c (List.mem_of_mem_head? hc))
    have hless : ¬ some COLON = some LESS := by decide
    simp only [ValueSpec.mark, cons_append, List.nil_append, tail_cons, List.head?_cons, hless, or_true, if_true,
      skip_fill hl hbody, ValueSpec.body, if_neg (encodeB64_ne_nil hplain), decode_encode]
    rfl
  | url u =>
    obtain ⟨hu, -, hsome⟩ := hok
    obtain ⟨v, hv⟩ := Option.isSome_iff_exists.mp hsome
    have hless : ¬ some LESS = some COLON := by decide
    simp only [ValueSpec.mark, cons_append, List.nil_append, tail_cons, List.head?_cons, hless, true_or, if_true, if_false,
      skip_fill hl hplain, ValueSpec.body, if_neg hu, ValueSpec.value, hv]
    rfl

/-! ## Lines -/

structure AttrLine where
  name : List Octet
  fill : ℕ
  spec : ValueSpec
  text : List Octet

namespace AttrLine

def raw (l : AttrLine) : List Octet := l.name ++ (l.spec.mark ++ (List.replicate l.fill SP ++ l.spec.body))

structure Ok (fetchUrl : List Octet → Option (List Octet)) (l : AttrLine) : Prop where
  name : IsName l.name
  spec : l.spec.Ok fetchUrl
  text : ∃ c raw t, l.raw = c :: raw ∧ l.text = c :: t ∧ c ≠ 0 ∧ Folded raw t

structure Plain (l : AttrLine) : Prop where
  spec : l.spec.Plain
  text : l.name ++ l.spec.mark <+: l.text

end AttrLine

inductive Item where
  | comment (text : List Octet)
  | sep (text : List Octet)
  | attr (l : AttrLine)

structure Attr where
  name : List Octet
  value : List Octet
  fetched : Bool

namespace Item

def text : Item → List Octet
  | comment t => t
  | sep t => t
  | attr l => l.text

def Ok (fetchUrl : List Octet → Option (List Octet)) : Item → Prop
  | comment t => ∃ raw t', t = HASH :: t' ∧ Folded raw t'
  | sep t => ∃ t', t = ascii '-' :: t' ∧ Folded [] t'
  | attr l => l.Ok fetchUrl

def Plain : Item → Prop
  | comment _ => True
  | sep t => t = [ascii '-']
  | attr l => l.Plain

/-- A line that is no comment; `-` says nothing. -/
def content (fetchUrl : List Octet → Option (List Octet)) : Item → Option (Option Attr)
  | comment _ => none
  | sep _ => some none
  | attr l => some (some ⟨l.name, (l.spec.value fetchUrl).getD [], l.spec.fetched⟩)

end Item

def contents (fetchUrl : List Octet → Option (List Octet)) (items : List Item) : List (Option Attr) :=
  items.filterMap (Item.content fetchUrl)

def toSlot : Option Attr → Slot
  | none => ⟨none, none, false⟩
  | some a => ⟨some a.name, some a.value, a.fetched⟩

def bufferOf (items : List Item) : List Octet := items.flatMap fun it => it.text ++ [NL]

section

variable {fetchUrl : List Octet → Option (List Octet)} {items : List Item} {it : Item} {rest tail : List Octet}

theorem Item.Ok.starts (h : it.Ok fetchUrl) : ∃ c t, it.text = c :: t ∧ c ≠ NL ∧ c ≠ SP ∧ c ≠ CR := by
  have hhash : HASH ≠ NL ∧ HASH ≠ SP ∧ HASH ≠ CR := by decide
  have hminus : ascii '-' ≠ NL ∧ ascii '-' ≠ SP ∧ ascii '-' ≠ CR := by decide
  have halnum : ∀ c : Octet, isAlnum c = true → c ≠ NL ∧ c ≠ SP ∧ c ≠ CR := by
    intro c hc
    refine ⟨?_, ?_, ?_⟩ <;> rintro rfl <;> exact absurd hc (by decide)
  cases it with
  | comment t =>
    obtain ⟨raw, t', rfl, -⟩ := h
    exact ⟨_, _, rfl, hhash⟩
  | sep t =>
    obtain ⟨t', rfl, -⟩ := h
    exact ⟨_, _, rfl, hminus⟩
  | attr l =>
    obtain ⟨c, raw, t, hraw, htext, -, -⟩ := AttrLine.Ok.text h
    obtain ⟨d, name, hname⟩ := exists_cons_of_ne_nil h.name.ne_nil
    rw [AttrLine.raw, hname, cons_append] at hraw
    obtain ⟨rfl, -⟩ := List.cons.inj hraw
    exact ⟨d, t, htext, halnum d (h.name.head d (by rw [hname]; rfl))⟩

theorem starts_buffer (h : ∀ it ∈ items, it.Ok fetchUrl) (htail : ∀ c ∈ tail.head?, c = NL) : Starts (bufferOf items ++ tail) := by
  cases items with
  | nil =>
    have hnl : NL ≠ SP ∧ NL ≠ CR := by decide
    exact ⟨fun hc => hnl.1 (htail _ hc).symm, fun hc => hnl.2 (htail _ hc).symm⟩
  | cons it items =>
    obtain ⟨c, t, htext, -, hsp, hcr⟩ := (h it (mem_cons_self ..)).starts
    rw [bufferOf, flatMap_cons, htext]
    exact ⟨fun hc => hsp (Option.some.inj hc), fun hc => hcr (Option.some.inj hc)⟩

theorem Item.Ok.no_nul (h : it.Ok fetchUrl) : 0 ∉ it.text := by
  have hhash : (0 : Octet) ≠ HASH ∧ (0 : Octet) ≠ ascii '-' := by decide
  cases it with
  | comment t =>
    obtain ⟨raw, t', rfl, hfold⟩ := h
    exact not_mem_cons_of_ne_of_not_mem hhash.1 hfold.no_nul
  | sep t =>
    obtain ⟨t', rfl, hfold⟩ := h
    exact not_mem_cons_of_ne_of_not_mem hhash.2 hfold.no_nul
  | attr l =>
    obtain ⟨c, raw, t, -, htext, hc, hfold⟩ := AttrLine.Ok.text h
    rw [Item.text, htext]
    exact not_mem_cons_of_ne_of_not_mem (Ne.symm hc) hfold.no_nul

theorem countlines_item (h : it.Ok fetchUrl) (hrest : Starts rest) : ldifCountlines (it.text ++ NL :: rest) = ldifCountlines rest + 1 := by
  obtain ⟨c, t, htext, hnl, -, -⟩ := h.starts
  have hfold : ∃ raw, Folded raw t := by
    cases it with
    | comment t' =>
      obtain ⟨raw, t'', rfl, hfold⟩ := h
      obtain ⟨-, rfl⟩ := List.cons.inj htext
      exact ⟨raw, hfold⟩
    | sep t' =>
      obtain ⟨t'', rfl, hfold⟩ := h
      obtain ⟨-, rfl⟩ := List.cons.inj htext
      exact ⟨[], hfold⟩
    | attr l =>
      obtain ⟨c', raw, t'', -, htext', -, hfold⟩ := AttrLine.Ok.text h
      obtain ⟨-, rfl⟩ := List.cons.inj (htext'.symm.trans htext)
      exact ⟨raw, hfold⟩
  obtain ⟨raw, hfold⟩ := hfold
  rw [htext, cons_append, ldifCountlines, if_neg (fun h => hnl h.1), hfold.countlines hrest, Nat.zero_add]

theorem countlines_buffer (h : ∀ it ∈ items, it.Ok fetchUrl) (htail : ∀ c ∈ tail.head?, c = NL) :
    items.length ≤ ldifCountlines (bufferOf items ++ tail) := by
  induction items with
  | nil => exact Nat.zero_le _
  | cons it items ih =>
    obtain ⟨hit, hitems⟩ := List.forall_mem_cons.mp h
    have hcount := countlines_item hit (starts_buffer hitems htail)
    have hbuf : bufferOf (it :: items) ++ tail = it.text ++ NL :: (bufferOf items ++ tail) := by simp [bufferOf]
    rw [hbuf, hcount, length_cons]
    exact Nat.succ_le_succ (ih hitems)

def afterLine (linenum : ℕ) (st : List Slot × Option (Option (List Octet) × ℕ) × Bool) (s : Slot) :
    List Slot × Option (Option (List Octet) × ℕ) × Bool :=
  let (before, dn, version) := st
  if dn.isSome then (before ++ [s], dn, version)
  else if linenum + before.length = 1 ∧ isWord s.btype "version" then (before ++ [s], dn, true)
  else if isWord s.btype "dn" then (before ++ [s], some (s.val, before.length), version)
  else (before ++ [s], dn, version)

theorem length_afterLine (linenum : ℕ) (st : List Slot × Option (Option (List Octet) × ℕ) × Bool) (s : Slot) :
    (afterLine linenum st s).1 = st.1 ++ [s] := by
  obtain ⟨before, dn, version⟩ := st
  simp only [afterLine]
  split_ifs <;> rfl

variable {linenum lines : ℕ} {st : List Slot × Option (Option (List Octet) × ℕ) × Bool}

theorem readLines_none {next : Option (List Octet)} (h : ldifGetline next = none) :
    readLines fetchUrl linenum lines next st.1 st.2.1 st.2.2 = .ok st := by
  rw [readLines.eq_def]
  split
  · rfl
  · rename_i hget
    rw [h] at hget
    cases hget

theorem readLines_some {next next' : Option (List Octet)} {line : List Octet} (h : ldifGetline next = some (line, next'))
    (hline : ∀ c ∈ line.head?, c ≠ NL) (hne : line ≠ []) (hlines : st.1.length < lines) {s : Slot}
    (hs : line = [ascii '-'] ∧ s = ⟨none, none, false⟩ ∨ line ≠ [ascii '-'] ∧
      ∃ type value fetched, s = ⟨some type, value, fetched⟩ ∧ ldifParseLine2 fetchUrl line = some ⟨type, value, fetched, true⟩) :
    readLines fetchUrl linenum lines next st.1 st.2.1 st.2.2 =
      readLines fetchUrl linenum lines next' (afterLine linenum st s).1 (afterLine linenum st s).2.1 (afterLine linenum st s).2.2 := by
  obtain ⟨before, dn, version⟩ := st
  have hgo : ¬ (line = [] ∨ line.head? = some NL) := by
    rintro (hnil | hnl)
    · exact hne hnil
    · exact hline NL hnl rfl
  rw [readLines.eq_def]
  split
  · rename_i hget
    rw [h] at hget
    cases hget
  · rename_i line' next'' hget
    rw [h] at hget
    obtain ⟨rfl, rfl⟩ := Prod.mk.inj (Option.some.inj hget)
    rw [if_neg hgo, if_neg (Nat.not_le_of_lt hlines)]
    obtain ⟨hminus, rfl⟩ | ⟨hminus, type, value, fetched, rfl, hparse⟩ := hs
    · rw [if_pos hminus]
      simp [afterLine, isWord]
    · rw [if_neg hminus, hparse]
      simp only [Bool.true_eq_false, if_false, afterLine]
      split_ifs <;> rfl

theorem readLines_end (htail : ∀ c ∈ tail.head?, c = NL) : readLines fetchUrl linenum lines (some tail) st.1 st.2.1 st.2.2 = .ok st := by
  refine readLines_none ?_
  rw [ldifGetline, if_pos]
  cases tail with
  | nil => exact .inl rfl
  | cons c tail => exact .inr (congrArg some (htail c rfl))

theorem getline_comment {text : List Octet} (h : (Item.comment text).Ok fetchUrl) (hrest : Starts rest) :
    ldifGetline (some (text ++ NL :: rest)) = ldifGetline (some rest) := by
  obtain ⟨raw, t, rfl, hfold⟩ := h
  obtain ⟨line, htake, -⟩ := hfold.takeLine hrest
  have hnl : HASH ≠ NL := by decide
  have htake' : (takeLine (HASH :: t ++ NL :: rest)).2 = some rest := by rw [cons_append, takeLine_cons hnl, htake]
  have hhash : (HASH :: t ++ NL :: rest).head? = some HASH := rfl
  rw [ldifGetline, if_neg (by simp [hnl]), if_pos hhash]
  split
  · rename_i h
    rw [htake'] at h
    cases h
  · rename_i rest' h
    rw [htake'] at h
    rw [Option.some.inj h]

theorem readLines_comment {text : List Octet} (h : (Item.comment text).Ok fetchUrl) (hrest : Starts rest) :
    readLines fetchUrl linenum lines (some (text ++ NL :: rest)) st.1 st.2.1 st.2.2 =
      readLines fetchUrl linenum lines (some rest) st.1 st.2.1 st.2.2 := by
  have hget := getline_comment h hrest
  cases hnext : ldifGetline (some rest) with
  | none => rw [readLines_none hnext, readLines_none (hget.trans hnext)]
  | some p =>
    rw [readLines.eq_def]
    split
    · rename_i hnone
      rw [hget, hnext] at hnone
      cases hnone
    · rename_i line next hsome
      rw [hget, hnext] at hsome
      obtain rfl := Option.some.inj hsome
      symm
      rw [readLines.eq_def]
      split
      · rename_i hnone
        rw [hnext] at hnone
        cases hnone
      · rename_i line' next' hsome'
        rw [hnext] at hsome'
        obtain ⟨rfl, rfl⟩ := Prod.mk.inj (Option.some.inj hsome')
        rfl

theorem getline_attr {l : AttrLine} (h : l.Ok fetchUrl) (hplain : l.Plain) (hrest : Starts rest) :
    ∃ line, ldifGetline (some (l.text ++ NL :: rest)) = some (l.name ++ (l.spec.mark ++ line), some rest) ∧
      line.filter (· ≠ CONTINUED_LINE_MARKER) = List.replicate l.fill SP ++ l.spec.body := by
  obtain ⟨c, raw, t, hraw, htext, -, hfold⟩ := h.text
  obtain ⟨d, name, hname⟩ := exists_cons_of_ne_nil h.name.ne_nil
  obtain ⟨t', ht'⟩ := hplain.text
  have hcolon : COLON ≠ NL ∧ COLON ≠ CR ∧ LESS ≠ NL ∧ LESS ≠ CR := by decide
  have hmark : NL ∉ l.spec.mark ∧ CR ∉ l.spec.mark := by
    cases l.spec <;> simp [ValueSpec.mark, hcolon.1.symm, hcolon.2.1.symm, hcolon.2.2.1.symm, hcolon.2.2.2.symm]
  have hspace : isSpace NL = true ∧ isSpace CR = true := by decide
  have hpre : NL ∉ l.name ++ l.spec.mark ∧ CR ∉ l.name ++ l.spec.mark := by
    constructor
    · intro hmem
      rcases List.mem_append.mp hmem with hn | hm
      · exact absurd (h.name.plain _ hn).2 (by simp [hspace])
      · exact hmark.1 hm
    · intro hmem
      rcases List.mem_append.mp hmem with hn | hm
      · exact absurd (h.name.plain _ hn).2 (by simp [hspace])
      · exact hmark.2 hm
  have hd : isAlnum d = true := h.name.head d (by rw [hname]; rfl)
  have hdnl : d ≠ NL := by
    rintro rfl
    exact absurd hd (by decide)
  have hdhash : d ≠ HASH := by
    rintro rfl
    exact absurd hd (by decide)
  rw [AttrLine.raw, hname, cons_append] at hraw
  obtain ⟨rfl, rfl⟩ := List.cons.inj hraw
  rw [hname, cons_append] at hpre
  rw [hname, htext, cons_append, cons_append] at ht'
  obtain ⟨-, rfl⟩ := List.cons.inj ht'
  obtain ⟨raw', heq, hfold⟩ := Folded.of_append (fun hm => hpre.1 (mem_cons_of_mem _ hm))
    (fun hm => hpre.2 (mem_cons_of_mem _ hm)) hfold
  rw [← append_assoc] at heq
  obtain rfl := append_cancel_left heq
  obtain ⟨line, htake, hfilter⟩ := hfold.takeLine hrest
  refine ⟨line, ?_, hfilter⟩
  have hget := takeLine_append hpre.1 (t' ++ NL :: rest)
  rw [htake] at hget
  have htext' : l.text ++ NL :: rest = d :: (name ++ l.spec.mark) ++ (t' ++ NL :: rest) := by rw [htext]; simp
  rw [htext', ldifGetline, if_neg (by simp [hdnl]), if_neg (by simp [hdhash]), hget, hname]
  simp

theorem length_body_le {l : AttrLine} (h : l.Ok fetchUrl) : l.spec.body.length ≤ l.text.length := by
  obtain ⟨c, raw, t, hraw, htext, -, hfold⟩ := h.text
  have hlen : raw.length ≤ t.length := by
    clear hraw htext
    induction hfold <;> simp only [length_cons, length_nil] at * <;> omega
  have hrawlen := congrArg List.length hraw
  rw [htext, length_cons]
  simp only [AttrLine.raw, length_append, length_replicate, length_cons] at hrawlen
  omega

theorem readLines_line {c : Option Attr} (h : it.Ok fetchUrl) (hplain : it.Plain) (hc : it.content fetchUrl = some c)
    (hint : it.text.length < 2 ^ 31) (hrest : Starts rest) (hlines : st.1.length < lines) :
    readLines fetchUrl linenum lines (some (it.text ++ NL :: rest)) st.1 st.2.1 st.2.2 =
      readLines fetchUrl linenum lines (some rest) (afterLine linenum st (toSlot c)).1 (afterLine linenum st (toSlot c)).2.1
        (afterLine linenum st (toSlot c)).2.2 := by
  have hone : ascii '-' ≠ NL ∧ ascii '-' ≠ HASH := by decide
  cases it with
  | comment t => cases hc
  | sep t =>
    obtain rfl := Option.some.inj hc
    obtain rfl : t = [ascii '-'] := hplain
    have hget : ldifGetline (some ([ascii '-'] ++ NL :: rest)) = some ([ascii '-'], some rest) := by
      rw [ldifGetline, if_neg (by simp [hone]), if_neg (by simp [hone]), singleton_append, takeLine_cons hone.1,
        takeLine_end hrest.1 hrest.2]
    exact readLines_some hget (by simp [hone]) (by simp) hlines (.inl ⟨rfl, rfl⟩)
  | attr l =>
    obtain rfl := Option.some.inj hc
    obtain ⟨line, hget, hfilter⟩ := getline_attr h hplain hrest
    obtain ⟨d, name, hname⟩ := exists_cons_of_ne_nil h.name.ne_nil
    have hd : isAlnum d = true := h.name.head d (by rw [hname]; rfl)
    have hdnl : d ≠ NL := by
      rintro rfl
      exact absurd hd (by decide)
    have hdminus : d ≠ ascii '-' := by
      rintro rfl
      exact absurd hd (by decide)
    obtain ⟨v, hv⟩ : ∃ v, l.spec.value fetchUrl = some v := by
      cases hspec : l.spec with
      | safe s => exact ⟨s, rfl⟩
      | base64 v => exact ⟨v, rfl⟩
      | url u =>
        have hok := h.spec
        rw [hspec] at hok
        exact Option.isSome_iff_exists.mp hok.2.2
    have hparse := parse_spec h.name h.spec hplain.spec hfilter (Nat.lt_of_le_of_lt (length_body_le h) hint)
    refine readLines_some hget ?_ ?_ hlines (.inr ⟨?_, l.name, some v, l.spec.fetched, ?_, ?_⟩)
    · rw [hname]
      intro c hc
      obtain rfl := Option.some.inj hc
      exact hdnl
    · rw [hname]
      exact cons_ne_nil _ _
    · rw [hname]
      exact fun heq => hdminus (List.cons.inj heq).1
    · simp [toSlot, hv]
    · rw [hparse, hv]

theorem readLines_items (h : ∀ it ∈ items, it.Ok fetchUrl) (hplain : ∀ it ∈ items, it.Plain) (hint : (bufferOf items).length < 2 ^ 31)
    (htail : ∀ c ∈ tail.head?, c = NL) (hlines : st.1.length + items.length ≤ lines) :
    readLines fetchUrl linenum lines (some (bufferOf items ++ tail)) st.1 st.2.1 st.2.2 =
      .ok (((contents fetchUrl items).map toSlot).foldl (afterLine linenum) st) := by
  induction items generalizing st with
  | nil => exact readLines_end htail
  | cons it items ih =>
    obtain ⟨hit, hitems⟩ := List.forall_mem_cons.mp h
    obtain ⟨hitp, hitemsp⟩ := List.forall_mem_cons.mp hplain
    have hbuf : bufferOf (it :: items) ++ tail = it.text ++ NL :: (bufferOf items ++ tail) := by simp [bufferOf]
    have hlen : (bufferOf (it :: items)).length = it.text.length + 1 + (bufferOf items).length := by
      simp [bufferOf, Nat.add_assoc, Nat.add_comm 1]
    rw [length_cons] at hlines
    cases hc : it.content fetchUrl with
    | none =>
      cases it with
      | comment t =>
        have hcontents : contents fetchUrl (.comment t :: items) = contents fetchUrl items := filterMap_cons_none rfl
        rw [hbuf, Item.text, readLines_comment hit (starts_buffer hitems htail), ih hitems hitemsp (by omega) (by omega), hcontents]
      | sep t => cases hc
      | attr l => cases hc
    | some c =>
      have hcontents : contents fetchUrl (it :: items) = c :: contents fetchUrl items := filterMap_cons_some hc
      have hnext := length_afterLine linenum st (toSlot c)
      rw [hbuf, readLines_line hit hitp hc (by omega) (starts_buffer hitems htail) (by omega),
        ih hitems hitemsp (by omega) (by rw [hnext, length_append, length_singleton]; omega), hcontents]
      rfl

theorem contents_named (h : ∀ it ∈ items, it.Ok fetchUrl) {a : Attr} (ha : some a ∈ contents fetchUrl items) :
    a.name ≠ [] ∧ 0 ∉ a.name := by
  obtain ⟨it, hit, hc⟩ := List.mem_filterMap.mp ha
  cases it with
  | comment t => cases hc
  | sep t => cases hc
  | attr l =>
    obtain rfl := Option.some.inj (Option.some.inj hc)
    have hl : l.Ok fetchUrl := h _ hit
    obtain ⟨c, raw, t, hraw, -, hc0, hfold⟩ := hl.text
    refine ⟨hl.name.ne_nil, fun hmem => ?_⟩
    have hraw0 : 0 ∈ l.raw := mem_append_left _ hmem
    rw [hraw] at hraw0
    rcases List.mem_cons.mp hraw0 with hc' | hmem
    · exact hc0 hc'.symm
    · exact hfold.raw_no_nul hmem

end

end LdifRecord
end Libreldap
end ReOpenLDAP
