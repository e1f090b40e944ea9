import Mathlib.Tactic.NormNum
import ReOpenLDAP.Libreldap.Ldif

/-!
# Libreldap.LdifLine

A line that `ldif_sput_wrap` has written is the next line of the text, and has the type and the value in it.
-/

namespace ReOpenLDAP
namespace Libreldap

open Ascii List

def marked (wrap : ℕ) : ℕ → List Octet → List Octet
  | _, [] => []
  | len, c :: cs => if wrap ≤ len then CR :: CR :: c :: marked wrap 2 cs else c :: marked wrap (len + 1) cs

def Fresh (rest : List Octet) : Prop := ∀ c ∈ rest.head?, isAlnum c = true

structure IsName (name : List Octet) : Prop where
  head : ∀ c ∈ name.head?, isAlnum c = true
  ne_nil : name ≠ []
  plain : ∀ c ∈ name, c ≠ COLON ∧ isSpace c = false

section

variable {wrap len : ℕ} {cs rest name val : List Octet}

theorem Fresh.not_space (h : Fresh rest) {c : Octet} (hc : isSpace c = true) : rest.head? ≠ some c := by
  intro hhead
  have hno := not_space_of_alnum (h c hhead)
  rw [hc] at hno
  cases hno

theorem takeLine_end (hsp : rest.head? ≠ some SP) (hcr : rest.head? ≠ some CR) : takeLine (NL :: rest) = ([], some rest) := by
  cases rest with
  | nil => rfl
  | cons d next =>
    have hsp : d ≠ SP := fun hd => hsp (congrArg some hd)
    have hcr : d ≠ CR := fun hd => hcr (congrArg some hd)
    simp [takeLine, hsp, hcr]

theorem takeLine_append {pre : List Octet} (hpre : NL ∉ pre) (buf : List Octet) :
    takeLine (pre ++ buf) = (pre ++ (takeLine buf).1, (takeLine buf).2) := by
  induction pre with
  | nil => rfl
  | cons c pre ih =>
    obtain ⟨hc, hpre⟩ := ne_and_not_mem_of_not_mem_cons hpre
    rw [cons_append, takeLine_cons (Ne.symm hc), ih hpre]
    rfl

theorem marked_cons (c : Octet) : marked wrap len (c :: cs) =
    if wrap ≤ len then CR :: CR :: c :: marked wrap 2 cs else c :: marked wrap (len + 1) cs := rfl

theorem takeLine_fold (hcs : NL ∉ cs) (h : Fresh rest) :
    takeLine (fold wrap len cs ++ NL :: rest) = (marked wrap len cs, some rest) := by
  induction cs generalizing len with
  | nil => exact takeLine_end (h.not_space rfl) (h.not_space rfl)
  | cons c cs ih =>
    obtain ⟨hc, hcs⟩ := ne_and_not_mem_of_not_mem_cons hcs
    have hc : c ≠ NL := Ne.symm hc
    rw [fold, marked_cons]
    split
    · rw [cons_append, cons_append, cons_append, takeLine_continued, takeLine_cons hc, ih hcs]
      rfl
    · rw [cons_append, takeLine_cons hc, ih hcs]

theorem filter_marked (hcs : CR ∉ cs) : (marked wrap len cs).filter (· ≠ CONTINUED_LINE_MARKER) = cs := by
  induction cs generalizing len with
  | nil => rfl
  | cons c cs ih =>
    obtain ⟨hc, hcs⟩ := ne_and_not_mem_of_not_mem_cons hcs
    have hc : c ≠ CR := Ne.symm hc
    rw [marked_cons]
    split <;> simp [CONTINUED_LINE_MARKER, hc] <;> exact ih hcs

theorem skip_marked (hcs : CR ∉ cs) (hhead : ∀ c ∈ cs.head?, isSpace c = false) :
    ((SP :: marked wrap len cs).dropWhile isSpace).filter (· ≠ CONTINUED_LINE_MARKER) = cs := by
  have hsp : isSpace SP = true := rfl
  have hcr : isSpace CR = true := rfl
  rw [dropWhile_cons_of_pos hsp]
  cases cs with
  | nil => rfl
  | cons c cs =>
    have hc : isSpace c = false := hhead c rfl
    have hmarks := @filter_marked wrap len _ hcs
    rw [marked_cons] at hmarks ⊢
    split
    · rename_i hlen
      rw [if_pos hlen, filter_cons_of_neg (by simp [CONTINUED_LINE_MARKER]),
        filter_cons_of_neg (by simp [CONTINUED_LINE_MARKER])] at hmarks
      rw [dropWhile_cons_of_pos hcr, dropWhile_cons_of_pos hcr, dropWhile_cons_of_neg (by simp [hc]), hmarks]
    · rename_i hlen
      rw [if_neg hlen] at hmarks
      rw [dropWhile_cons_of_neg (by simp [hc]), hmarks]

/-! ## One line -/

theorem digit_graph (n : ℕ) : isGraph (digit n) = true := (sextet_table ⟨n / 2 ^ 18 % 64, Nat.mod_lt _ (by omega)⟩).2

theorem quad_graph (a b c : Octet) : ∀ d ∈ quad a b c, isGraph d = true := by simp [quad, digit_graph]

theorem encodeB64_graph (val : List Octet) : ∀ c ∈ encodeB64 val, isGraph c = true := by
  have hpad : isGraph PAD = true := by decide
  induction val using encodeB64.induct with
  | case1 => exact fun c hc => absurd hc not_mem_nil
  | case2 a =>
    rw [encodeB64, forall_mem_append]
    exact ⟨fun d hd => quad_graph a 0 0 d (mem_of_mem_take hd), by simp [hpad]⟩
  | case3 a b =>
    rw [encodeB64, forall_mem_append]
    exact ⟨fun d hd => quad_graph a b 0 d (mem_of_mem_take hd), by simp [hpad]⟩
  | case4 a b c rest ih =>
    rw [encodeB64, forall_mem_append]
    exact ⟨quad_graph a b c, ih⟩

theorem encodeB64_ne_nil (hval : val ≠ []) : encodeB64 val ≠ [] := by
  have hquad : ∀ a b c, quad a b c ≠ [] := fun a b c => cons_ne_nil _ _
  fun_cases encodeB64 val with
  | case1 => exact absurd rfl hval
  | case2 a => simp
  | case3 a b => simp
  | case4 a b c rest => simp [hquad]

theorem countlines_append {pre : List Octet} (hpre : NL ∉ pre) (buf : List Octet) :
    ldifCountlines (pre ++ buf) = ldifCountlines buf := by
  induction pre with
  | nil => rfl
  | cons c pre ih =>
    obtain ⟨hc, hpre⟩ := ne_and_not_mem_of_not_mem_cons hpre
    rw [cons_append, ldifCountlines, if_neg (fun h => hc h.1.symm), ih hpre, Nat.zero_add]

theorem countlines_fold (hcs : NL ∉ cs) (h : Fresh rest) :
    ldifCountlines (fold wrap len cs ++ NL :: rest) = ldifCountlines rest + 1 := by
  induction cs generalizing len with
  | nil =>
    rw [fold, List.nil_append, ldifCountlines, if_pos ⟨rfl, h.not_space rfl⟩, Nat.add_comm]
  | cons c cs ih =>
    obtain ⟨hc, hcs⟩ := ne_and_not_mem_of_not_mem_cons hcs
    have hc : c ≠ NL := Ne.symm hc
    have hsp : SP ≠ NL := by decide
    rw [fold]
    split
    · rw [cons_append, cons_append, cons_append, ldifCountlines, if_neg (by simp), ldifCountlines,
        if_neg (fun h => hsp h.1), ldifCountlines, if_neg (fun h => hc h.1), ih hcs]
      omega
    · rw [cons_append, ldifCountlines, if_neg (fun h => hc h.1), ih hcs, Nat.zero_add]

/-- What stands behind the `:`, and what it says. -/
inductive Tail (val : List Octet) : (mark cs : List Octet) → Prop where
  | empty : val = [] → Tail val [] []
  | plain : (∀ c ∈ val, isPrint c = true) → (∃ c ∈ val.head?, isGraph c = true ∧ c ≠ COLON ∧ c ≠ LESS) → Tail val [SP] val
  | b64 : val ≠ [] → Tail val [COLON, SP] (encodeB64 val)

theorem plainValue_spec {registered : List MustB64Encode} (h : plainValue registered name val = true) :
    (∀ c ∈ val, isPrint c = true) ∧ ∃ c ∈ val.head?, isGraph c = true ∧ c ≠ COLON ∧ c ≠ LESS := by
  rw [plainValue] at h
  split at h
  · rename_i first last hfirst hlast
    simp only [Bool.and_eq_true, decide_eq_true_eq, List.all_eq_true] at h
    obtain ⟨⟨⟨⟨⟨⟨hgraph, hcolon⟩, hless⟩, -⟩, -⟩, -⟩, hprint⟩ := h
    exact ⟨hprint, first, hfirst, hgraph, hcolon, hless⟩
  · cases h

def width (wrap : ℕ) : ℕ := if wrap = 0 then LDIF_LINE_WIDTH + LDIF_KLUDGE else wrap

theorem sput_eq (registered : List MustB64Encode) (wrap : ℕ) (name val : List Octet) : ∃ mark cs, Tail val mark cs ∧
    ldifSputWrap registered .value (some name) val wrap =
      name ++ COLON :: (mark ++ (fold (width wrap) (name.length + 1 + mark.length) cs ++ [NL])) := by
  by_cases hval : val = []
  · refine ⟨[], [], .empty hval, ?_⟩
    subst hval
    simp [ldifSputWrap, fold]
  by_cases hplain : plainValue registered name val = true
  · obtain ⟨hprint, hhead⟩ := plainValue_spec hplain
    refine ⟨[SP], val, .plain hprint hhead, ?_⟩
    simp [ldifSputWrap, hval, hplain, width]
  · refine ⟨[COLON, SP], encodeB64 val, .b64 hval, ?_⟩
    simp [ldifSputWrap, hval, hplain, width]

section

variable {mark : List Octet}

theorem Tail.clean (h : Tail val mark cs) : NL ∉ mark ∧ NL ∉ cs ∧ CR ∉ cs ∧ ∀ c ∈ cs.head?, isSpace c = false := by
  cases h with
  | empty hval => simp
  | plain hprint hhead =>
    obtain ⟨c, hc, hgraph, -⟩ := hhead
    refine ⟨by decide, fun h => (print_not_control (hprint _ h)).1 rfl, fun h => (print_not_control (hprint _ h)).2 rfl, ?_⟩
    intro d hd
    obtain rfl := Option.mem_unique hc hd
    exact not_space_of_graph hgraph
  | b64 hval =>
    have hgraph := encodeB64_graph val
    have hctl : isGraph NL = false ∧ isGraph CR = false := by decide
    refine ⟨by decide, fun h => ?_, fun h => ?_, fun c hc => not_space_of_graph (hgraph c (List.mem_of_mem_head? hc))⟩
    · exact absurd (hgraph _ h) (by simp [hctl])
    · exact absurd (hgraph _ h) (by simp [hctl])

theorem IsName.no_newline (h : IsName name) : NL ∉ name := by
  intro hmem
  exact absurd (h.plain _ hmem).2 (by decide)

theorem getline_line (hname : IsName name) (htail : Tail val mark cs) (h : Fresh rest) :
    ldifGetline (some (name ++ COLON :: (mark ++ (fold wrap len cs ++ [NL])) ++ rest)) =
      some (name ++ COLON :: (mark ++ marked wrap len cs), some rest) := by
  obtain ⟨hmark, hcs, -, -⟩ := htail.clean
  obtain ⟨c, name', rfl⟩ := exists_cons_of_ne_nil hname.ne_nil
  have hc : isAlnum c = true := hname.head c rfl
  have hnl : c ≠ NL := by
    rintro rfl
    exact absurd hc (by decide)
  have hhash : c ≠ HASH := by
    rintro rfl
    exact absurd hc (by decide)
  have hpre : NL ∉ c :: name' ++ COLON :: mark := by
    intro hmem
    rcases List.mem_append.mp hmem with hn | hm
    · exact hname.no_newline hn
    · rcases List.mem_cons.mp hm with hc | hm
      · exact absurd hc (by decide)
      · exact hmark hm
  have htake := takeLine_append hpre (fold wrap len cs ++ NL :: rest)
  rw [takeLine_fold hcs h] at htake
  rw [ldifGetline, if_neg (by simp [hnl]), if_neg (by simp [hhash])]
  simpa using htake

theorem trimType_name (h : IsName name) : trimType name = name := by
  obtain ⟨c, cs, rfl⟩ := exists_cons_of_ne_nil h.ne_nil
  have hall : ∀ d ∈ cs.reverse.head?, isSpace d = false := by
    intro d hd
    exact (h.plain d (mem_cons_of_mem _ (List.mem_reverse.mp (List.mem_of_mem_head? hd)))).2
  have htake : cs.reverse.takeWhile isSpace = [] ∧ cs.reverse.dropWhile isSpace = cs.reverse := by
    cases hrev : cs.reverse with
    | nil => exact ⟨rfl, rfl⟩
    | cons d ds =>
      have hd : isSpace d = false := hall d (by rw [hrev]; rfl)
      exact ⟨takeWhile_cons_of_neg (by simp [hd]), dropWhile_cons_of_neg (by simp [hd])⟩
  rw [trimType, htake.1, htake.2]
  simp

theorem castInt_eq {n : ℕ} (h : n < 2 ^ 31) : castInt n = n := Int.bmod_eq_of_le (by norm_num) (by norm_num; omega)

theorem intLength_eq (h : val.length < 2 ^ 31) : intLength val = some val := by
  rw [intLength, castInt_eq h, if_pos ⟨by omega, by omega⟩, Int.toNat_natCast, take_length]

theorem parse_line (fetchUrl : List Octet → Option (List Octet)) (hname : IsName name) (htail : Tail val mark cs)
    (hval : val.length < 2 ^ 31) : ldifParseLine2 fetchUrl (name ++ COLON :: (mark ++ marked wrap len cs)) =
      some ⟨name, some val, false, true⟩ := by
  obtain ⟨-, -, hcr, hhead⟩ := htail.clean
  have hskip : (name ++ COLON :: (mark ++ marked wrap len cs)).dropWhile isSpace = name ++ COLON :: (mark ++ marked wrap len cs) := by
    obtain ⟨c, name', rfl⟩ := exists_cons_of_ne_nil hname.ne_nil
    exact dropWhile_cons_of_neg (by simp [not_space_of_alnum (hname.head c rfl)])
  have hcolon : ∀ c ∈ name, decide (c ≠ COLON) = true := fun c hc => decide_eq_true (hname.plain c hc).1
  have htake : (name ++ COLON :: (mark ++ marked wrap len cs)).takeWhile (· ≠ COLON) = name := by
    rw [takeWhile_append_of_pos hcolon, takeWhile_cons_of_neg (by simp), List.append_nil]
  have hdrop : (name ++ COLON :: (mark ++ marked wrap len cs)).dropWhile (· ≠ COLON) = COLON :: (mark ++ marked wrap len cs) := by
    rw [dropWhile_append_of_pos hcolon, dropWhile_cons_of_neg (by simp)]
  rw [ldifParseLine2]
  simp only [hskip, htake, hdrop, trimType_name hname, tail_cons, if_neg (cons_ne_nil _ _)]
  cases htail with
  | empty hnil =>
    subst hnil
    have hnone : ¬ (none : Option Octet) = some LESS ∧ ¬ (none : Option Octet) = some COLON := by simp
    simp only [List.nil_append, marked, List.head?_nil, hnone, or_self, if_false, dropWhile_nil, filter_nil, intLength_eq hval,
      Option.map_some]
  | plain hprint hgraph =>
    have hskip := @skip_marked wrap len cs hcr hhead
    have hsp : ¬ some SP = some LESS ∧ ¬ some SP = some COLON := by decide
    simp only [singleton_append, List.head?_cons, hsp, or_self, if_false, hskip, intLength_eq hval, Option.map_some]
  | b64 hne =>
    have hskip := @skip_marked wrap len _ hcr hhead
    have hless : ¬ some COLON = some LESS := by decide
    simp only [cons_append, List.nil_append, List.head?_cons, hless, or_true, if_true, tail_cons, hskip,
      if_neg (encodeB64_ne_nil hne), decode_encode]

theorem Tail.no_nul (h : Tail val mark cs) : 0 ∉ mark ∧ 0 ∉ cs := by
  have hclass : isPrint 0 = false ∧ isGraph 0 = false := by decide
  cases h with
  | empty hval => simp
  | plain hprint hhead => exact ⟨by decide, fun h => absurd (hprint _ h) (by simp [hclass])⟩
  | b64 hval => exact ⟨by decide, fun h => absurd (encodeB64_graph val _ h) (by simp [hclass])⟩

theorem fold_no_nul (h : 0 ∉ cs) : 0 ∉ fold wrap len cs := by
  induction cs generalizing len with
  | nil => exact not_mem_nil
  | cons c cs ih =>
    obtain ⟨hc, hcs⟩ := ne_and_not_mem_of_not_mem_cons h
    rw [fold]
    split
    · simp [hc, ih hcs, NL, SP]
    · simp [hc, ih hcs]

theorem length_fold_le (hwrap : 1 < wrap) (len : ℕ) (cs : List Octet) :
    (fold wrap len cs).length ≤ cs.length + (len + cs.length) / (wrap - 1) * 2 := by
  induction cs generalizing len with
  | nil => exact Nat.zero_le _
  | cons c cs ih =>
    rw [fold]
    split
    · rename_i hfull
      have hrest := ih 2
      -- a full line is worth one more fold
      have hline : (2 + cs.length) / (wrap - 1) + 1 ≤ (len + (cs.length + 1)) / (wrap - 1) := by
        rw [← Nat.add_div_right _ (by omega)]
        exact Nat.div_le_div_right (by omega)
      simp only [length_cons]
      omega
    · have hrest := ih (len + 1)
      rw [show len + 1 + cs.length = len + (cs.length + 1) by omega] at hrest
      simp only [length_cons]
      omega

theorem length_encodeB64 (val : List Octet) : (encodeB64 val).length = (val.length + 2) / 3 * 4 := by
  induction val using encodeB64.induct with
  | case1 => rfl
  | case2 a => simp [encodeB64, quad]
  | case3 a b => simp [encodeB64, quad]
  | case4 a b c rest ih =>
    simp only [encodeB64, quad, length_append, length_cons, length_nil]
    omega

theorem Tail.length_le (h : Tail val mark cs) : mark.length ≤ 2 ∧ cs.length ≤ LDIF_BASE64_LEN val.length := by
  rw [LDIF_BASE64_LEN]
  cases h with
  | empty hval => simp
  | plain => exact ⟨by simp, by omega⟩
  | b64 =>
    rw [length_encodeB64]
    exact ⟨by simp, by omega⟩

end

theorem length_sput (registered : List MustB64Encode) (name val : List Octet) :
    (ldifSputWrap registered .value (some name) val LDIF_LINE_WIDTH).length ≤ LDIF_SIZE_NEEDED name.length val.length := by
  obtain ⟨mark, cs, htail, heq⟩ := sput_eq registered LDIF_LINE_WIDTH name val
  obtain ⟨hmark, hcs⟩ := htail.length_le
  have hwidth : width LDIF_LINE_WIDTH = 76 := rfl
  have hfold := length_fold_le (show 1 < 76 by omega) (name.length + 1 + mark.length) cs
  have hlines : (name.length + 1 + mark.length + cs.length) / 75 ≤ (LDIF_BASE64_LEN val.length + name.length + 3) / 75 :=
    Nat.div_le_div_right (by omega)
  rw [heq, hwidth, LDIF_SIZE_NEEDED, LDIF_LINE_WIDTH]
  simp only [length_append, length_cons, length_nil]
  omega

theorem sput_no_nul (registered : List MustB64Encode) (wrap : ℕ) (val : List Octet) (hname : 0 ∉ name) :
    0 ∉ ldifSputWrap registered .value (some name) val wrap := by
  obtain ⟨mark, cs, htail, heq⟩ := sput_eq registered wrap name val
  obtain ⟨hmark, hcs⟩ := htail.no_nul
  rw [heq]
  simp [hname, hmark, fold_no_nul hcs, COLON, NL]

/-- A written line is read as the type and the value, and the text goes on behind it. -/
structure LineRead (fetchUrl : List Octet → Option (List Octet)) (name val rest out : List Octet) (line : List Octet) : Prop where
  getline : ldifGetline (some (out ++ rest)) = some (line, some rest)
  starts : ∀ c, line.head? = some c → c ≠ NL
  ne_nil : line ≠ []
  parse : ldifParseLine2 fetchUrl line = some ⟨name, some val, false, true⟩
  count : ldifCountlines (out ++ rest) = ldifCountlines rest + 1

theorem sput_line (registered : List MustB64Encode) (fetchUrl : List Octet → Option (List Octet)) (wrap : ℕ) (hname : IsName name)
    (hval : val.length < 2 ^ 31) (h : Fresh rest) :
    ∃ line, LineRead fetchUrl name val rest (ldifSputWrap registered .value (some name) val wrap) line := by
  obtain ⟨mark, cs, htail, heq⟩ := sput_eq registered wrap name val
  obtain ⟨hmark, hcs, -, -⟩ := htail.clean
  generalize width wrap = wrap' at heq
  generalize name.length + 1 + mark.length = len at heq
  have hcolon : NL ∉ name ++ COLON :: mark := by
    intro hmem
    rcases List.mem_append.mp hmem with hn | hm
    · exact hname.no_newline hn
    · rcases List.mem_cons.mp hm with hc | hm
      · exact absurd hc (by decide)
      · exact hmark hm
  refine ⟨name ++ COLON :: (mark ++ marked wrap' len cs), ?_, ?_, ?_, parse_line fetchUrl hname htail hval, ?_⟩
  · rw [heq]
    exact getline_line hname htail h
  · intro c hc
    obtain ⟨d, name', rfl⟩ := exists_cons_of_ne_nil hname.ne_nil
    obtain rfl := Option.some.inj hc
    rintro rfl
    exact hname.no_newline (mem_cons_self ..)
  · simp
  · have hcount := countlines_append hcolon (fold wrap' len cs ++ NL :: rest)
    rw [countlines_fold hcs h] at hcount
    rw [heq]
    simpa using hcount

end

end Libreldap
end ReOpenLDAP
