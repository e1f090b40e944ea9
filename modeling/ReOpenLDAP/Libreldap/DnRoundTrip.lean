import Mathlib.Data.List.TakeWhile
import ReOpenLDAP.Libreldap.DnRead

/-!
# Libreldap.DnRoundTrip

DNs in LDAPv2 and DCE are read as they were written.

* `dn_text_round_trip` — all DNs in LDAPv2, and in DCE those whose values have nothing that DCE does not escape.
-/

namespace ReOpenLDAP
namespace Libreldap
namespace Getdn

open Ascii Escape List Option

structure Descriptor (type : List Octet) : Prop where
  lead : ∃ c t, type = c :: t ∧ isAlpha c = true
  chars : ∀ c ∈ type, descChar c = true

structure Printable (v : List Octet) : Prop where
  ne_nil : v ≠ []
  chars : ∀ c ∈ v, isPrint c = true

def ia5Tokens (first : Bool) : List Octet → List (Token Octet)
  | [] => []
  | c :: val => (if escapeIA5 first val.isEmpty c then .escaped c else .plain c) :: ia5Tokens false val

def dceTokens (val : List Octet) : List (Token Octet) := val.map fun c => if needEscapeDCE c then .escaped c else .plain c

theorem ia5Text_eq (first : Bool) (val : List Octet) : ia5Text first val = render backslash (ia5Tokens first val) := by
  induction val generalizing first with
  | nil => rfl
  | cons c val ih =>
    rw [ia5Text, ia5Tokens, render_cons, ih]
    split <;> rfl

theorem dceText_eq (val : List Octet) : dceText val = render backslash (dceTokens val) := by
  induction val with
  | nil => rfl
  | cons c val ih =>
    rw [dceText, ih, dceTokens, dceTokens, map_cons, render_cons]
    split <;> rfl

theorem chars_ia5Tokens (first : Bool) (val : List Octet) : chars (ia5Tokens first val) = val := by
  induction val generalizing first with
  | nil => rfl
  | cons c val ih =>
    have htail : (ia5Tokens false val).map Token.char = val := ih false
    rw [ia5Tokens, chars, map_cons, htail]
    split <;> rfl

theorem chars_dceTokens (val : List Octet) : chars (dceTokens val) = val := by
  rw [chars, dceTokens, List.map_map]
  refine (map_congr_left fun c _ => ?_).trans (List.map_id val)
  simp only [Function.comp_apply]
  split <;> rfl

def escapable : Format → Octet → Bool
  | .ldapv2, _ => true
  | .dce, c => needEscapeDCE c

theorem strval_eq (format : Format) (t : List Octet) :
    strval format t = read backslash (escapable format) (valueEnd format) dnSpace t := by cases format <;> rfl

structure Written (format : Format) (val : List Octet) (t : List Octet) : Prop where
  tokens : ∃ ts, t = render backslash ts ∧ chars ts = val ∧ (∀ t ∈ ts, Fine backslash (escapable format) (valueEnd format) t) ∧
    Stripped dnSpace ts
  lead : ∃ d t', t = d :: t' ∧ dnSpace d = false ∧ d ≠ ascii '#' ∧ (format = .ldapv2 → d ≠ ascii '"')

theorem escapeIA5_false {first last : Bool} {c : Octet} (h : escapeIA5 first last c = false) :
    c ≠ backslash ∧ valueEnd .ldapv2 c = false ∧ (first = true → dnSpace c = false ∧ c ≠ ascii '#' ∧ c ≠ ascii '"') ∧
      (last = true → dnSpace c = false) := by
  simp only [escapeIA5, needEscape, dnNe, needEscapeLead, needEscapeTrail, Bool.or_eq_false_iff, Bool.and_eq_false_iff,
    decide_eq_false_iff_not] at h
  simp only [valueEnd, rdnSep, avaSep, Bool.or_eq_false_iff, decide_eq_false_iff_not]
  refine ⟨h.1.1.1.1, ⟨h.1.1.1.2.1.1.1.1, h.1.1.1.2.1.1.1.2⟩, ?_, ?_⟩
  · rintro rfl
    have hlead := h.1.2.resolve_left (by simp)
    exact ⟨hlead.1.2, hlead.2, h.1.1.1.2.1.1.2⟩
  · rintro rfl
    exact (h.2.resolve_left (by simp)).1

theorem ia5Tokens_fine (first : Bool) (val : List Octet) :
    ∀ t ∈ ia5Tokens first val, Fine backslash (escapable .ldapv2) (valueEnd .ldapv2) t := by
  induction val generalizing first with
  | nil => simp [ia5Tokens]
  | cons c val ih =>
    refine List.forall_mem_cons.mpr ⟨?_, ih false⟩
    split
    · exact rfl
    · rename_i h
      obtain ⟨hesc, hend, -⟩ := escapeIA5_false (by simpa using h)
      exact ⟨hesc, hend⟩

theorem ia5Tokens_stripped (first : Bool) (val : List Octet) : Stripped dnSpace (ia5Tokens first val) := by
  induction val generalizing first with
  | nil => exact fun us c h => by simp [ia5Tokens] at h
  | cons d val ih =>
    intro us c h hspace
    cases us with
    | nil => rfl
    | cons t us =>
      have htail : ia5Tokens false val = us ++ [.plain c] := (List.cons.inj h).2
      obtain rfl := ih false us c htail hspace
      cases val with
      | nil => simp [ia5Tokens] at htail
      | cons e val =>
        obtain ⟨hhead, hval⟩ := List.cons.inj htail
        have hnil : val = [] := by cases val <;> simp_all [ia5Tokens]
        subst hnil
        split at hhead
        · cases hhead
        · rename_i hesc
          obtain rfl := Token.plain.inj hhead
          have hfalse := (escapeIA5_false (by simpa using hesc)).2.2.2 rfl
          rw [hspace] at hfalse
          cases hfalse

variable {val rest : List Octet} {format : Format} {ava : LDAPAVA} {dn : LDAPDN} {rdn : LDAPRDN}

theorem written_ia5 (h : val ≠ []) : Written .ldapv2 val (ia5Text true val) := by
  refine ⟨⟨ia5Tokens true val, ia5Text_eq true val, chars_ia5Tokens true val, ia5Tokens_fine true val, ia5Tokens_stripped true val⟩, ?_⟩
  obtain ⟨c, val, rfl⟩ := exists_cons_of_ne_nil h
  rw [ia5Text]
  split
  · exact ⟨backslash, c :: ia5Text false val, rfl, by decide, by decide, fun _ => by decide⟩
  · rename_i hesc
    obtain ⟨hspace, hhash, hquote⟩ := (escapeIA5_false (by simpa using hesc)).2.2.1 rfl
    exact ⟨c, ia5Text false val, rfl, hspace, hhash, fun _ => hquote⟩

theorem needEscapeDCE_false {c : Octet} (h : needEscapeDCE c = false) : valueEnd .dce c = false := by
  simp only [needEscapeDCE, Bool.or_eq_false_iff, decide_eq_false_iff_not] at h
  simp only [valueEnd, rdnSep, avaSep, Bool.or_eq_false_iff, decide_eq_false_iff_not]
  exact h.1

theorem written_dce (h : val ≠ []) (hsafe : DceSafe val) : Written .dce val (dceText val) := by
  refine ⟨⟨dceTokens val, dceText_eq val, chars_dceTokens val, ?_, ?_⟩, ?_⟩
  · intro t ht
    obtain ⟨c, hc, rfl⟩ := List.mem_map.mp ht
    split
    · rename_i hesc
      exact hesc
    · rename_i hesc
      exact ⟨fun heq => hsafe.no_escape (heq ▸ hc), needEscapeDCE_false (by simpa using hesc)⟩
  · intro us c hus hspace
    have hval : val = chars us ++ [c] := by
      rw [← chars_dceTokens val, hus, chars, map_append]
      rfl
    have hfalse := hsafe.trail c (by simp [hval])
    rw [hspace] at hfalse
    cases hfalse
  · obtain ⟨c, val, rfl⟩ := exists_cons_of_ne_nil h
    obtain ⟨hspace, hhash⟩ := hsafe.lead c rfl
    rw [dceText]
    split
    · exact ⟨backslash, c :: dceText val, rfl, by decide, by decide, by simp⟩
    · exact ⟨c, dceText val, rfl, hspace, hhash, by simp⟩

theorem skipSpaces_cons {c : Octet} {t : List Octet} (h : dnSpace c = false) : skipSpaces (c :: t) = c :: t := by
  rw [skipSpaces, dropWhile_cons_of_neg (by simp [h])]

theorem alpha_spec {c : Octet} (h : isAlpha c = true) : dnSpace c = false ∧ isDigit c = false := by
  simp only [isAlpha, isUpper, isLower, dnSpace, isDigit, NL, CR, ascii, Bool.or_eq_true, Bool.and_eq_true,
    decide_eq_true_eq] at h ⊢
  grind

theorem descChar_spec {c : Octet} (h : descChar c = true) : c ≠ ascii '=' ∧ toLower c ≠ ascii '.' := by
  refine ⟨?_, fun hdot => ?_⟩
  · rintro rfl
    exact absurd h (by decide)
  · unfold toLower at hdot
    split at hdot
    · obtain rfl : c = 14 := by
        rw [Fin.ext_iff, Fin.val_add] at hdot
        have hval : (ascii '.').val = 46 := rfl
        have h32 : (32 : Octet).val = 32 := rfl
        exact Fin.ext (by omega)
      exact absurd h (by decide)
    · subst hdot
      exact absurd h (by decide)

theorem descriptor_not_oid {type : List Octet} (h : ∀ c ∈ type, descChar c = true) (rest : List Octet) :
    ((type ++ ascii '=' :: rest).take 4).map toLower ≠ Ascii.text "oid." := by
  intro heq
  have hat (i : ℕ) (hi : i < 4) : ((type ++ ascii '=' :: rest)[i]?).map toLower = (Ascii.text "oid.")[i]? := by
    rw [← heq, List.getElem?_map, List.getElem?_take_of_lt hi]
  by_cases hlen : type.length < 4
  · have hsep := hat type.length hlen
    rw [List.getElem?_append_right (le_refl _), Nat.sub_self] at hsep
    have hall : ∀ i ∈ List.range 4, (some (toLower (ascii '=')) : Option Octet) ≠ (Ascii.text "oid.")[i]? := by decide
    exact hall type.length (List.mem_range.mpr hlen) hsep
  · have hdot := hat 3 (by omega)
    rw [List.getElem?_append_left (by omega), List.getElem?_eq_getElem (by omega)] at hdot
    exact (descChar_spec (h _ (getElem_mem _))).2 (Option.some.inj hdot)

theorem readType_descriptor {type : List Octet} (h : Descriptor type) (format : Format) (rest : List Octet) :
    readType format (type ++ ascii '=' :: rest) = some (type, ascii '=' :: rest) := by
  obtain ⟨c, t, rfl, halpha⟩ := h.lead
  obtain ⟨hspace, hdigit⟩ := alpha_spec halpha
  have hoid := descriptor_not_oid h.chars rest
  have hstop : descChar (ascii '=') = false := by decide
  have htail : ∀ d ∈ t, descChar d = true := fun d hd => h.chars d (mem_cons_of_mem c hd)
  rw [cons_append] at hoid ⊢
  unfold readType
  rw [skipSpaces_cons hspace]
  simp only [hdigit, Bool.false_eq_true, if_false, halpha, hoid, and_false, Bool.true_eq_false]
  rw [stringType]
  simp only [takeWhile_append_of_pos htail, dropWhile_append_of_pos htail,
    takeWhile_cons_of_neg (p := descChar) (a := ascii '=') (by simp [hstop]),
    dropWhile_cons_of_neg (p := descChar) (a := ascii '=') (by simp [hstop])]
  have hlang : langSep (ascii '=') = false := by decide
  simp only [List.append_nil, List.head?_cons, any_some, hlang, Bool.false_eq_true, if_false]

theorem readValue_written {t : List Octet} (h : Written format val t)
    (hstop : Stops (valueEnd format) rest) : readValue format (ascii '=' :: t ++ rest) = some (val, .string, rest) := by
  obtain ⟨⟨ts, ht, hchars, hfine, hstripped⟩, d, t', rfl, hspace, hhash, hquote⟩ := h
  have hread : strval format (d :: t' ++ rest) = some (val, rest) := by
    rw [strval_eq, ht, read_render hfine hstop (by cases format <;> decide) hstripped, hchars]
  unfold readValue
  rw [cons_append, skipSpaces_cons (by decide)]
  simp only [ne_eq, not_true_eq_false, if_false]
  rw [cons_append, skipSpaces_cons hspace]
  simp only [if_neg hhash]
  rw [if_neg fun h => hquote h.1 h.2, ← cons_append, hread]
  rfl

/-- Type, `=` and value. -/
def avaBody (format : Format) (ava : LDAPAVA) : List Octet :=
  ava.la_attr ++ ascii '=' :: (match format with
    | .ldapv2 => ia5Text true ava.la_value
    | .dce => dceText ava.la_value)

structure Ordinary (ava : LDAPAVA) : Prop where
  descriptor : Descriptor ava.la_attr
  printable : Printable ava.la_value
  string : ava.la_flags = .string

structure Good (format : Format) (ava : LDAPAVA) : Prop extends Ordinary ava where
  safe : format = .dce → DceSafe ava.la_value

theorem Good.written (h : Good format ava) : ∃ t,
    avaBody format ava = ava.la_attr ++ ascii '=' :: t ∧ Written format ava.la_value t := by
  cases format with
  | ldapv2 => exact ⟨_, rfl, written_ia5 h.printable.ne_nil⟩
  | dce => exact ⟨_, rfl, written_dce h.printable.ne_nil (h.safe rfl)⟩

theorem ava_round_trip (h : Good format ava)
    (hstop : Stops (valueEnd format) rest) : readAva format (avaBody format ava ++ rest) = some (ava, rest) := by
  obtain ⟨t, hbody, hwritten⟩ := h.written
  have hvalue := readValue_written hwritten hstop
  rw [hbody, readAva, append_assoc, cons_append, readType_descriptor h.descriptor, bind_some, ← cons_append,
    hvalue, map_some, ← h.string]

/-! ## RDNs -/

def theAvaSep : Format → Octet
  | .ldapv2 => ascii '+'
  | .dce => ascii ','

def theRdnSep : Format → Octet
  | .ldapv2 => ascii ','
  | .dce => ascii '/'

def rdnBody (format : Format) (rdn : LDAPRDN) : List Octet := joined (theAvaSep format) (rdn.map (avaBody format))

theorem theSep_spec (format : Format) : avaSep format (theAvaSep format) = true ∧ rdnSep format (theRdnSep format) = true ∧
    avaSep format (theRdnSep format) = false := by cases format <;> decide

def RdnEnds (format : Format) (rest : List Octet) : Prop := ∀ c ∈ rest.head?, c = theRdnSep format

theorem RdnEnds.stops (h : RdnEnds format rest) : Stops (valueEnd format) rest := by
  intro c hc
  rw [h c hc, valueEnd, (theSep_spec format).2.1, Bool.true_or]

theorem rdn_round_trip {format : Format} {rdn : LDAPRDN} (hne : rdn ≠ []) (h : ∀ ava ∈ rdn, Good format ava) {rest : List Octet}
    (hends : RdnEnds format rest) {n : ℕ} (hn : rdn.length ≤ n) :
    ldapBv2rdn format n (rdnBody format rdn ++ rest) = some (rdn, rest) := by
  obtain ⟨havasep, -, hrdnsep⟩ := theSep_spec format
  induction rdn generalizing n with
  | nil => exact absurd rfl hne
  | cons ava rdn ih =>
    obtain ⟨hava, hrdn⟩ := List.forall_mem_cons.mp h
    obtain ⟨n, rfl⟩ : ∃ m, n = m + 1 := ⟨n - 1, by rw [length_cons] at hn; omega⟩
    rw [ldapBv2rdn]
    cases rdn with
    | nil =>
      rw [rdnBody, map_singleton, joined, ava_round_trip hava hends.stops, bind_some]
      cases rest with
      | nil => rfl
      | cons c rest =>
        have hc : avaSep format c = false := by rw [hends c rfl, hrdnsep]
        simp [hc]
    | cons ava' rdn =>
      have hbody : rdnBody format (ava :: ava' :: rdn) =
          avaBody format ava ++ theAvaSep format :: rdnBody format (ava' :: rdn) := rfl
      have hstop : Stops (valueEnd format) (theAvaSep format :: rdnBody format (ava' :: rdn) ++ rest) := by
        intro c hc
        obtain rfl := Option.some.inj hc
        rw [valueEnd, havasep, Bool.or_true]
      rw [hbody, append_assoc, ava_round_trip hava hstop, bind_some]
      simp only [cons_append, havasep, if_true]
      have hn' : (ava' :: rdn).length ≤ n := Nat.le_of_succ_le_succ hn
      rw [ih (by simp) hrdn hn', map_some]

theorem length_joined (sep : Octet) (ts : List (List Octet)) (h : ∀ t ∈ ts, t ≠ []) : ts.length ≤ (joined sep ts).length := by
  induction ts with
  | nil => simp
  | cons t ts ih =>
    obtain ⟨ht, hts⟩ := List.forall_mem_cons.mp h
    have hpos := length_pos_of_ne_nil ht
    cases ts with
    | nil => exact hpos
    | cons u ts =>
      have hrest := ih hts
      simp only [joined, length_append, length_cons] at hrest ⊢
      omega

theorem avaBody_ne_nil (format : Format) (ava : LDAPAVA) : avaBody format ava ≠ [] := by simp [avaBody]

theorem length_rdnBody (format : Format) (rdn : LDAPRDN) : rdn.length ≤ (rdnBody format rdn).length := by
  have h := length_joined (theAvaSep format) (rdn.map (avaBody format)) (by simp [avaBody_ne_nil])
  rwa [length_map] at h

theorem rdnBody_ne_nil {format : Format} {rdn : LDAPRDN} (h : rdn ≠ []) : rdnBody format rdn ≠ [] := by
  have hlen := length_rdnBody format rdn
  have hpos := length_pos_of_ne_nil h
  exact ne_nil_of_length_pos (by omega)

def dnBody (format : Format) (dn : LDAPDN) : List Octet := joined (theRdnSep format) (dn.map (rdnBody format))

theorem rdns_round_trip (hne : dn ≠ []) (h : ∀ rdn ∈ dn, rdn ≠ [] ∧ ∀ ava ∈ rdn, Good format ava)
    {n : ℕ} (hn : dn.length ≤ n) : readRdns format 0 n (dnBody format dn) = some dn := by
  induction dn generalizing n with
  | nil => exact absurd rfl hne
  | cons rdn dn ih =>
    obtain ⟨⟨hrdn, hgood⟩, hdn⟩ := List.forall_mem_cons.mp h
    obtain ⟨n, rfl⟩ : ∃ m, n = m + 1 := ⟨n - 1, by rw [length_cons] at hn; omega⟩
    rw [readRdns]
    cases dn with
    | nil =>
      have hbody : dnBody format [rdn] = rdnBody format rdn := rfl
      have hpos := length_pos_of_ne_nil (@rdnBody_ne_nil format rdn hrdn)
      have hread := @rdn_round_trip format rdn hrdn hgood [] (by simp [RdnEnds]) _ (length_rdnBody format rdn)
      rw [List.append_nil] at hread
      rw [hbody, if_neg (by omega), hread]
      rfl
    | cons rdn' dn =>
      have hbody : dnBody format (rdn :: rdn' :: dn) = rdnBody format rdn ++ theRdnSep format :: dnBody format (rdn' :: dn) := rfl
      have hread := @rdn_round_trip format rdn hrdn hgood (theRdnSep format :: dnBody format (rdn' :: dn))
        (fun c hc => (Option.some.inj hc).symm) (rdnBody format rdn ++ theRdnSep format :: dnBody format (rdn' :: dn)).length
        (by rw [length_append]; exact (length_rdnBody format rdn).trans (Nat.le_add_right _ _))
      rw [hbody, if_neg (by simp), hread, bind_some]
      simp only [length_cons, Nat.le_zero, Nat.add_eq_zero_iff, one_ne_zero, and_false, if_false, (theSep_spec format).2.1,
        if_true]
      have hn' : (rdn' :: dn).length ≤ n := Nat.le_of_succ_le_succ hn
      rw [ih (by simp) hdn hn', map_some]

theorem length_ia5Text (first : Bool) (val : List Octet) : (ia5Text first val).length = ia5Length first val := by
  induction val generalizing first with
  | nil => rfl
  | cons c val ih =>
    rw [ia5Text, ia5Length, length_append, ih]
    split <;> rfl

theorem length_dceText (val : List Octet) : (dceText val).length = dceLength val := by
  induction val with
  | nil => rfl
  | cons c val ih =>
    rw [dceText, dceLength, length_append, ih]
    split <;> rfl

theorem Printable.cstring_eq (h : Printable val) : cstring val = val := by
  refine List.takeWhile_eq_self_iff.mpr fun c hc => ?_
  have hprint := h.chars c hc
  rw [decide_eq_true_eq]
  rintro rfl
  exact absurd hprint (by decide)

theorem Ordinary.length_and_text (h : Ordinary ava) (format : Format) : ∃ v,
    avaText format ava = some v ∧ avaLength format ava = some v.length ∧ avaBody format ava = ava.la_attr ++ ascii '=' :: v := by
  have hflags := h.string
  have hne := h.printable.ne_nil
  have hlen := h.printable.cstring_eq
  cases format with
  | ldapv2 =>
    refine ⟨ia5Text true ava.la_value, ?_, ?_, rfl⟩
    · simp [avaText, hflags, strvalText, strval2IA5str, hne]
    · simp [avaLength, hflags, strvalLength, strval2IA5strlen, hne, hlen, length_ia5Text]
  | dce =>
    refine ⟨dceText ava.la_value, ?_, ?_, rfl⟩
    · simp [avaText, hflags, strvalText, strval2DCEstr, hne]
    · simp [avaLength, hflags, strvalLength, strval2DCEstrlen, hne, hlen, length_dceText]

theorem rdnBody_cons (format : Format) (ava ava' : LDAPAVA) (rdn : LDAPRDN) :
    rdnBody format (ava :: ava' :: rdn) = avaBody format ava ++ theAvaSep format :: rdnBody format (ava' :: rdn) := rfl

theorem rdnBody_singleton (format : Format) (ava : LDAPAVA) : rdnBody format [ava] = avaBody format ava := rfl

theorem rdn2strlen_eq (format : Format) (hne : rdn ≠ []) (h : ∀ ava ∈ rdn, Ordinary ava) :
    rdn2strlen format rdn = some ((rdnBody format rdn).length + 1) := by
  induction rdn with
  | nil => exact absurd rfl hne
  | cons ava rdn ih =>
    obtain ⟨hava, hrdn⟩ := List.forall_mem_cons.mp h
    obtain ⟨v, -, hlen, hbody⟩ := hava.length_and_text format
    have hbodyLen : (avaBody format ava).length = ava.la_attr.length + 1 + v.length := by
      rw [hbody, length_append, length_cons]
      omega
    rw [rdn2strlen, hlen, bind_some]
    cases rdn with
    | nil =>
      rw [rdn2strlen, rdnBody_singleton, hbodyLen, map_some]
      exact congrArg some (by omega)
    | cons ava' rdn =>
      rw [ih (by simp) hrdn, rdnBody_cons, length_append, length_cons, hbodyLen, map_some]
      exact congrArg some (by omega)

theorem rdn2str_eq (hne : rdn ≠ []) (h : ∀ ava ∈ rdn, Ordinary ava) :
    rdn2str rdn = some (rdnBody .ldapv2 rdn ++ [ascii ',']) := by
  induction rdn with
  | nil => exact absurd rfl hne
  | cons ava rdn ih =>
    obtain ⟨hava, hrdn⟩ := List.forall_mem_cons.mp h
    obtain ⟨v, htext, -, hbody⟩ := hava.length_and_text .ldapv2
    rw [rdn2str, htext, bind_some]
    cases rdn with
    | nil => simp [rdn2str, rdnBody_singleton, hbody]
    | cons ava' rdn =>
      rw [ih (by simp) hrdn, rdnBody_cons, hbody]
      simp [theAvaSep]

theorem rdn2DCEstr_eq (hne : rdn ≠ []) (h : ∀ ava ∈ rdn, Ordinary ava) (head : Bool) :
    rdn2DCEstr head rdn = some ((if head then ascii '/' else ascii ',') :: rdnBody .dce rdn) := by
  induction rdn generalizing head with
  | nil => exact absurd rfl hne
  | cons ava rdn ih =>
    obtain ⟨hava, hrdn⟩ := List.forall_mem_cons.mp h
    obtain ⟨v, htext, -, hbody⟩ := hava.length_and_text .dce
    rw [rdn2DCEstr, htext, bind_some]
    cases rdn with
    | nil => simp [rdn2DCEstr, rdnBody_singleton, hbody]
    | cons ava' rdn =>
      rw [ih (by simp) hrdn false, rdnBody_cons, hbody]
      simp [theAvaSep]

theorem dnBody_cons (format : Format) (rdn rdn' : LDAPRDN) (dn : LDAPDN) :
    dnBody format (rdn :: rdn' :: dn) = rdnBody format rdn ++ theRdnSep format :: dnBody format (rdn' :: dn) := rfl

theorem dnBody_singleton (format : Format) (rdn : LDAPRDN) : dnBody format [rdn] = rdnBody format rdn := rfl

def OrdinaryDN (dn : LDAPDN) : Prop := ∀ rdn ∈ dn, rdn ≠ [] ∧ ∀ ava ∈ rdn, Ordinary ava

theorem sumLengths_eq (format : Format) (h : OrdinaryDN dn) :
    sumLengths format dn = some (dn.map fun rdn => (rdnBody format rdn).length + 1).sum := by
  induction dn with
  | nil => rfl
  | cons rdn dn ih =>
    obtain ⟨hrdn, hdn⟩ := List.forall_mem_cons.mp h
    rw [sumLengths, rdn2strlen_eq format hrdn.1 hrdn.2, bind_some, ih hdn, map_some, map_cons, sum_cons]

theorem length_dnBody (format : Format) (hne : dn ≠ []) :
    (dn.map fun rdn => (rdnBody format rdn).length + 1).sum = (dnBody format dn).length + 1 := by
  induction dn with
  | nil => exact absurd rfl hne
  | cons rdn dn ih =>
    cases dn with
    | nil => simp [dnBody_singleton]
    | cons rdn' dn =>
      rw [map_cons, sum_cons, ih (by simp), dnBody_cons, length_append, length_cons]
      omega

theorem concatTexts_rdn2str (hne : dn ≠ []) (h : OrdinaryDN dn) :
    concatTexts rdn2str dn = some (dnBody .ldapv2 dn ++ [ascii ',']) := by
  induction dn with
  | nil => exact absurd rfl hne
  | cons rdn dn ih =>
    obtain ⟨hrdn, hdn⟩ := List.forall_mem_cons.mp h
    rw [concatTexts, rdn2str_eq hrdn.1 hrdn.2, bind_some]
    cases dn with
    | nil => simp [concatTexts, dnBody_singleton]
    | cons rdn' dn =>
      rw [ih (by simp) hdn, dnBody_cons]
      simp [theRdnSep]

theorem concatTexts_rdn2DCEstr (hne : dn ≠ []) (h : OrdinaryDN dn) :
    concatTexts (rdn2DCEstr true) dn = some (ascii '/' :: dnBody .dce dn) := by
  induction dn with
  | nil => exact absurd rfl hne
  | cons rdn dn ih =>
    obtain ⟨hrdn, hdn⟩ := List.forall_mem_cons.mp h
    rw [concatTexts, rdn2DCEstr_eq hrdn.1 hrdn.2 true, bind_some]
    cases dn with
    | nil => simp [concatTexts, dnBody_singleton]
    | cons rdn' dn =>
      rw [ih (by simp) hdn, dnBody_cons]
      simp [theRdnSep]

def dnText : Format → LDAPDN → List Octet
  | .ldapv2, dn => dnBody .ldapv2 dn
  | .dce, dn => ascii '/' :: dnBody .dce dn.reverse

theorem ldapDn2bv_eq (format : Format) (hne : dn ≠ []) (h : OrdinaryDN dn) : ∃ r,
    ldapDn2bv format dn = some r ∧ r.written.length = r.len ∧ r.bv_val = dnText format dn := by
  rw [ldapDn2bv, if_neg hne, sumLengths_eq format h, bind_some, length_dnBody format hne]
  cases format with
  | ldapv2 =>
    refine ⟨_, by rw [concatTexts_rdn2str hne h]; rfl, by simp, ?_⟩
    simp [dnText]
  | dce =>
    have hne' : dn.reverse ≠ [] := by simpa using hne
    have hlen : (dnBody .dce dn.reverse).length = (dnBody .dce dn).length := by
      have hsum := length_dnBody .dce hne'
      rw [map_reverse, sum_reverse, length_dnBody .dce hne] at hsum
      omega
    refine ⟨_, by rw [concatTexts_rdn2DCEstr hne' fun rdn hrdn => h rdn (List.mem_reverse.mp hrdn)]; rfl, by simp [hlen], ?_⟩
    simp [dnText, ← hlen]

theorem zero_notMem_joined {sep : Octet} {ts : List (List Octet)} (hsep : 0 ≠ sep) (h : ∀ t ∈ ts, 0 ∉ t) : 0 ∉ joined sep ts := by
  induction ts with
  | nil => exact not_mem_nil
  | cons t ts ih =>
    obtain ⟨ht, hts⟩ := List.forall_mem_cons.mp h
    cases ts with
    | nil => exact ht
    | cons u ts => simpa [joined, ht, hsep] using ih hts

theorem mem_ia5Text {first : Bool} {c : Octet} (h : c ∈ ia5Text first val) : c = backslash ∨ c ∈ val := by
  rw [ia5Text_eq] at h
  have hmem := mem_render h
  rwa [chars_ia5Tokens] at hmem

theorem mem_dceText {c : Octet} (h : c ∈ dceText val) : c = backslash ∨ c ∈ val := by
  rw [dceText_eq] at h
  have hmem := mem_render h
  rwa [chars_dceTokens] at hmem

theorem Ordinary.zero_notMem (h : Ordinary ava) (format : Format) : 0 ∉ avaBody format ava := by
  have hattr : 0 ∉ ava.la_attr := fun hmem => absurd (h.descriptor.chars 0 hmem) (by decide)
  have hvalue : 0 ∉ ava.la_value := fun hmem => absurd (h.printable.chars 0 hmem) (by decide)
  have hesc : (0 : Octet) ≠ backslash := by decide
  have heq : (0 : Octet) ≠ ascii '=' := by decide
  cases format with
  | ldapv2 =>
    have htext : 0 ∉ ia5Text true ava.la_value := fun hmem => (mem_ia5Text hmem).elim hesc hvalue
    simp [avaBody, hattr, heq, htext]
  | dce =>
    have htext : 0 ∉ dceText ava.la_value := fun hmem => (mem_dceText hmem).elim hesc hvalue
    simp [avaBody, hattr, heq, htext]

theorem zero_notMem_dnBody (format : Format) (h : OrdinaryDN dn) : 0 ∉ dnBody format dn := by
  have hava : (0 : Octet) ≠ theAvaSep format := by cases format <;> decide
  have hrdn : (0 : Octet) ≠ theRdnSep format := by cases format <;> decide
  refine zero_notMem_joined hrdn fun t ht => ?_
  obtain ⟨rdn, hmem, rfl⟩ := List.mem_map.mp ht
  refine zero_notMem_joined hava fun t ht => ?_
  obtain ⟨ava, hava, rfl⟩ := List.mem_map.mp ht
  exact ((h rdn hmem).2 ava hava).zero_notMem format

theorem dnBody_head (format : Format) (hne : dn ≠ []) (h : OrdinaryDN dn) :
    ∃ c t, dnBody format dn = c :: t ∧ isAlpha c = true := by
  obtain ⟨rdn, dn, rfl⟩ := exists_cons_of_ne_nil hne
  obtain ⟨hrdn, hava⟩ := h rdn mem_cons_self
  obtain ⟨ava, rdn, rfl⟩ := exists_cons_of_ne_nil hrdn
  obtain ⟨c, t, hattr, halpha⟩ := (hava ava mem_cons_self).descriptor.lead
  obtain ⟨v, -, -, hbody⟩ := (hava ava mem_cons_self).length_and_text format
  have hbody : ∃ t', rdnBody format (ava :: rdn) = c :: t' := by
    cases rdn with
    | nil => exact ⟨_, by rw [rdnBody_singleton, hbody, hattr]; rfl⟩
    | cons ava' rdn => exact ⟨_, by rw [rdnBody_cons, hbody, hattr]; rfl⟩
  obtain ⟨t', hbody⟩ := hbody
  cases dn with
  | nil => exact ⟨c, t', by rw [dnBody_singleton, hbody], halpha⟩
  | cons rdn' dn => exact ⟨c, _, by rw [dnBody_cons, hbody]; rfl, halpha⟩

theorem length_dnBody_le (format : Format) (h : ∀ rdn ∈ dn, rdn ≠ []) : dn.length ≤ (dnBody format dn).length := by
  have hlen := length_joined (theRdnSep format) (dn.map (rdnBody format)) fun t ht => by
    obtain ⟨rdn, hrdn, rfl⟩ := List.mem_map.mp ht
    exact rdnBody_ne_nil (h rdn hrdn)
  rwa [length_map] at hlen

def GoodDN (format : Format) (dn : LDAPDN) : Prop := ∀ rdn ∈ dn, rdn ≠ [] ∧ ∀ ava ∈ rdn, Good format ava

theorem GoodDN.ordinary (h : GoodDN format dn) : OrdinaryDN dn :=
  fun rdn hrdn => ⟨(h rdn hrdn).1, fun ava hava => ((h rdn hrdn).2 ava hava).toOrdinary⟩

theorem ldapBv2dn_dnText (hne : dn ≠ []) (h : GoodDN format dn) : ldapBv2dn format (dnText format dn) = some dn := by
  cases format with
  | ldapv2 =>
    obtain ⟨c, t, hbody, halpha⟩ := dnBody_head .ldapv2 hne h.ordinary
    have hzero := zero_notMem_dnBody .ldapv2 h.ordinary
    have hbracket : c ≠ ascii '<' := by
      rintro rfl
      exact absurd halpha (by decide)
    have hread := rdns_round_trip hne h (length_dnBody_le .ldapv2 fun rdn hrdn => (h rdn hrdn).1)
    rw [hbody] at hzero hread
    rw [dnText, hbody, ldapBv2dn]
    simp only [List.head?_cons, Option.some.injEq, hbracket, if_false, reduceCtorEq, hzero]
    exact hread
  | dce =>
    have hne' : dn.reverse ≠ [] := by simpa using hne
    have h' : GoodDN .dce dn.reverse := fun rdn hrdn => h rdn (List.mem_reverse.mp hrdn)
    have hzero : 0 ∉ ascii '/' :: dnBody .dce dn.reverse :=
      not_mem_cons_of_ne_of_not_mem (by decide) (zero_notMem_dnBody .dce h'.ordinary)
    have hlen := length_dnBody_le .dce fun rdn hrdn => (h' rdn hrdn).1
    rw [dnText, ldapBv2dn]
    simp only [hzero, if_false, ne_eq, not_true_eq_false]
    rw [rdns_round_trip hne' h' (hlen.trans (Nat.le_succ _)), map_some, reverse_reverse]

def RoundTrips (format : Format) (dn : LDAPDN) : Prop :=
  ∃ r, ldapDn2bv format dn = some r ∧ r.written.length = r.len ∧ ldapBv2dn format r.bv_val = some dn

/-- DNs of types that are descriptors and values that are printable. Those with values that only LDAPv2 escapes
are not read as they were written in DCE. -/
theorem dn_text_round_trip (format : Format) {dn : LDAPDN} (h : ∀ rdn ∈ dn, ∀ ava ∈ rdn, Ordinary ava) :
    RoundTrips format dn ↔ ∀ rdn ∈ dn, rdn ≠ [] ∧ (format = .dce → ∀ ava ∈ rdn, DceSafe ava.la_value) := by
  constructor
  · rintro ⟨r, -, -, hread⟩ rdn hrdn
    refine ⟨ldapBv2dn_ne_nil hread rdn hrdn, ?_⟩
    rintro rfl ava hava
    exact ldapBv2dn_readable hread rdn hrdn ava hava (h rdn hrdn ava hava).string
  · intro hsafe
    have hgood : GoodDN format dn := fun rdn hrdn =>
      ⟨(hsafe rdn hrdn).1, fun ava hava => ⟨h rdn hrdn ava hava, fun hdce => (hsafe rdn hrdn).2 hdce ava hava⟩⟩
    by_cases hne : dn = []
    case pos =>
      subst hne
      exact ⟨⟨0, [], []⟩, rfl, rfl, by cases format <;> rfl⟩
    obtain ⟨r, hwrite, hlen, htext⟩ := ldapDn2bv_eq format hne hgood.ordinary
    exact ⟨r, hwrite, hlen, by rw [htext, ldapBv2dn_dnText hne hgood]⟩

/-- `cn= "Q", #1=\\`, with a space at both ends. -/
def quotedAva : LDAPAVA := ⟨Ascii.text "cn", Ascii.text " \"Q\", #1=\\ ", .string⟩

theorem quotedAva_ordinary : Ordinary quotedAva :=
  ⟨⟨⟨ascii 'c', [ascii 'n'], by decide, by decide⟩, by decide +kernel⟩, ⟨by decide, by decide +kernel⟩, rfl⟩

theorem dn_text_round_trip_quoted : RoundTrips .ldapv2 [[quotedAva], [quotedAva, quotedAva]] :=
  (dn_text_round_trip .ldapv2 (by simp [quotedAva_ordinary])).mpr (by simp)

/-- `cn=a\b` in DCE is `/cn=a\b`, where the escape is none. -/
def backslashAva : LDAPAVA := ⟨Ascii.text "cn", Ascii.text "a\\b", .string⟩

theorem dce_text_backslash : Ordinary backslashAva ∧
    ldapDn2bv .dce [[backslashAva]] = some ⟨7, Ascii.text "/cn=a\\b", Ascii.text "/cn=a\\b"⟩ ∧
      ldapBv2dn .dce (Ascii.text "/cn=a\\b") = none ∧ ¬ RoundTrips .dce [[backslashAva]] := by
  have hwrite : ldapDn2bv .dce [[backslashAva]] = some ⟨7, Ascii.text "/cn=a\\b", Ascii.text "/cn=a\\b"⟩ := by decide
  have hread : ldapBv2dn .dce (Ascii.text "/cn=a\\b") = none := by decide
  refine ⟨⟨⟨⟨ascii 'c', [ascii 'n'], by decide, by decide⟩, by decide +kernel⟩, ⟨by decide, by decide +kernel⟩, rfl⟩, hwrite, hread, ?_⟩
  rintro ⟨r, hr, -, hback⟩
  rw [hwrite] at hr
  obtain rfl := Option.some.inj hr
  rw [hread] at hback
  cases hback

end Getdn
end Libreldap
end ReOpenLDAP
