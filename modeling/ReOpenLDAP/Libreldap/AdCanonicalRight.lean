import Mathlib.Data.List.TakeWhile
import ReOpenLDAP.Libreldap.AdCanonical

/-!
# Libreldap.AdCanonicalRight

When a DN in AD canonical format has all of its values.

* `ad_canonical_complete`     — that is exact.
-/

namespace ReOpenLDAP
namespace Libreldap
namespace Getdn

open Ascii Slapd.Utf8 List

section

variable {ε α β : Type*}

theorem bind_ok {x : Except ε α} {f : α → Except ε β} {b : β} : x.bind f = .ok b ↔ ∃ a, x = .ok a ∧ f a = .ok b := by
  cases x <;> simp [Except.bind]

theorem map_ok {x : Except ε α} {f : α → β} {b : β} : x.map f = .ok b ↔ ∃ a, x = .ok a ∧ f a = b := by
  cases x <;> simp [Except.map]

end

/-- A NUL among the characters, `k` octets in front of the next one. -/
def nulChar : ℕ → List Octet → Bool
  | _, [] => false
  | k + 1, _ :: val => nulChar k val
  | 0, c :: val => c = 0 || nulChar (charlen c - 1) val

theorem charlen2_cons (c : Octet) (val : List Octet) :
    charlen2 (c :: (val ++ [0])) = some 0 ∨ charlen2 (c :: (val ++ [0])) = some (charlen c) := by
  by_cases hlt : charlen c < 3
  · exact .inr (by simp [charlen2, hlt])
  · cases val with
    | nil => exact .inl (by simp [charlen2, hlt, shortest_zero])
    | cons d val =>
      cases hshort : shortest c d with
      | true => exact .inr (by simp [charlen2, hlt, hshort])
      | false => exact .inl (by simp [charlen2, hlt, hshort])

variable {val t sep : List Octet} {l len : ℕ} {ava : LDAPAVA} {rdn : LDAPRDN} {f g : LDAPAVA → ℕ}

theorem adStr_length_le {k : ℕ} (h : adStr k val = .ok t) : val.length ≤ t.length := by
  induction val generalizing k t with
  | nil => exact Nat.zero_le _
  | cons c val ih =>
    cases k with
    | succ k =>
      rw [adStr] at h
      obtain ⟨t, ht, rfl⟩ := map_ok.mp h
      exact Nat.succ_le_succ (ih ht)
    | zero =>
      rw [adStr] at h
      split at h
      · cases h
      · cases h
      · obtain ⟨t, ht, rfl⟩ := map_ok.mp h
        have hle := ih ht
        rw [length_append, length_cons]
        split <;> simp only [length_cons, length_nil] <;> omega

theorem adLength_adStr {k : ℕ} (h : adLength k (val ++ [0]) = .ok l) :
    (nulChar k val = false → ∃ t, adStr k val = .ok t ∧ t.length = l + k) ∧
      (nulChar k val = true → ∀ t, adStr k val = .ok t → l + k < t.length) := by
  induction val generalizing k l with
  | nil =>
    rcases k with _ | _ | k
    · obtain rfl : 0 = l := Except.ok.inj h
      exact ⟨fun _ => ⟨[], rfl, rfl⟩, by simp [nulChar]⟩
    · cases h
    · cases h
  | cons c val ih =>
    cases k with
    | succ k =>
      obtain ⟨hfree, hnul⟩ := ih h
      constructor
      · intro hk
        obtain ⟨t, ht, hlen⟩ := hfree hk
        exact ⟨c :: t, by rw [adStr, ht]; rfl, by rw [length_cons, hlen]; omega⟩
      · intro hk t ht
        rw [adStr] at ht
        obtain ⟨t', ht', rfl⟩ := map_ok.mp ht
        have hlt := hnul hk t' ht'
        rw [length_cons]
        omega
    | zero =>
      rw [cons_append, adLength] at h
      by_cases hc : c = 0
      · subst hc
        obtain rfl : 0 = l := Except.ok.inj h
        refine ⟨by simp [nulChar], fun _ t ht => ?_⟩
        have hle := adStr_length_le ht
        rw [length_cons] at hle
        omega
      · rw [if_neg hc] at h
        split at h
        · cases h
        · cases h
        · rename_i cl hcl
          obtain ⟨n, hn, rfl⟩ := map_ok.mp h
          obtain ⟨hfree, hnul⟩ := ih hn
          have hchar : charlen c - 1 = cl := by
            rcases charlen2_cons c val with h0 | h1
            · rw [h0] at hcl
              cases hcl
            · rw [h1] at hcl
              have := Option.some.inj hcl
              omega
          have hnulChar : nulChar 0 (c :: val) = nulChar cl val := by simp [nulChar, hc, hchar]
          have hstr : adStr 0 (c :: val) =
              (adStr cl val).map ((if cl = 0 ∧ needEscapeAD c = true then [backslash, c] else [c]) ++ ·) := by
            rw [adStr]
            simp only [cons_append, hcl]
          have hhead : (if cl = 0 ∧ needEscapeAD c = true then [backslash, c] else [c]).length + cl =
              if cl = 0 ∧ needEscapeAD c = true then 2 else cl + 1 := by
            split <;> simp <;> omega
          rw [hnulChar, hstr]
          constructor
          · intro hk
            obtain ⟨t, ht, hlen⟩ := hfree hk
            exact ⟨_, by rw [ht]; rfl, by rw [length_append, hlen]; omega⟩
          · intro hk t ht
            obtain ⟨t', ht', rfl⟩ := map_ok.mp ht
            have hlt := hnul hk t' ht'
            rw [length_append]
            omega

def measured (ava : LDAPAVA) : ℕ := (adAvaLength ava).toOption.getD 0

def textOf (ava : LDAPAVA) : List Octet := (adAvaText ava).toOption.getD []

theorem adAvaLength_ok (h : adAvaLength ava = .ok l) : measured ava = l := by simp [measured, h, Except.toOption]

theorem adAvaText_ok (h : adAvaText ava = .ok t) : textOf ava = t := by
  simp [textOf, h, Except.toOption]

def NoNul (ava : LDAPAVA) : Prop := ava.la_flags = .binary ∨ nulChar 0 ava.la_value = false

theorem length_binval2hexstr (val : List Octet) : (binval2hexstr val).length = 2 * val.length := by
  induction val with
  | nil => rfl
  | cons c val ih =>
    simp only [binval2hexstr, flatMap_cons, length_append, length_cons, length_nil] at ih ⊢
    omega

theorem strval2ADstrlen_eq (val : List Octet) : strval2ADstrlen val = adLength 0 (val ++ [0]) := by
  cases val with
  | nil => rfl
  | cons c val => rw [strval2ADstrlen, if_neg (by simp)]

theorem NoNul.text (h : NoNul ava) (hl : adAvaLength ava = .ok l) : ∃ t, adAvaText ava = .ok t ∧ t.length = l := by
  by_cases hbin : ava.la_flags = .binary
  · rw [adAvaLength, if_pos hbin] at hl
    obtain rfl := Except.ok.inj hl
    exact ⟨_, by rw [adAvaText, if_pos hbin], by rw [length_cons, length_binval2hexstr, Nat.add_comm]⟩
  · rw [adAvaLength, if_neg hbin, strval2ADstrlen_eq] at hl
    rw [adAvaText, if_neg hbin]
    exact (adLength_adStr hl).1 (h.resolve_left hbin)

theorem measured_lt (h : ¬ NoNul ava) (hl : adAvaLength ava = .ok l) (ht : adAvaText ava = .ok t) : l < t.length := by
  obtain ⟨hbin, hnul⟩ := not_or.mp h
  rw [adAvaLength, if_neg hbin, strval2ADstrlen_eq] at hl
  rw [adAvaText, if_neg hbin] at ht
  exact (adLength_adStr hl).2 (by simpa using hnul) t ht

/-! ## Values of domains -/

def adEscape (c : Octet) : List Octet := if needEscapeAD c then [backslash, c] else [c]

theorem print_charlen {c : Octet} (h : isPrint c = true) : charlen c = 1 ∧ c ≠ 0 := (charlen_spec c).2.2.2.1 h

theorem print_of_noNul (h : (cstring val).all isPrint = true) (hnul : nulChar 0 val = false) : ∀ c ∈ val, isPrint c = true := by
  induction val with
  | nil => simp
  | cons c val ih =>
    have hc : c ≠ 0 := by
      rintro rfl
      simp [nulChar] at hnul
    rw [cstring, takeWhile_cons_of_pos (by simpa using hc), all_cons, Bool.and_eq_true] at h
    have hchar := (print_charlen h.1).1
    rw [nulChar, hchar, Bool.or_eq_false_iff] at hnul
    exact List.forall_mem_cons.mpr ⟨h.1, ih h.2 hnul.2⟩

theorem adStr_print (h : ∀ c ∈ val, isPrint c = true) : adStr 0 val = .ok (val.flatMap adEscape) := by
  induction val with
  | nil => rfl
  | cons c val ih =>
    obtain ⟨hc, hval⟩ := List.forall_mem_cons.mp h
    have hchar := (print_charlen hc).1
    have hlen : charlen2 (c :: val ++ [0]) = some 1 := by simp [charlen2, hchar]
    rw [adStr, hlen]
    simp only [ih hval, Except.map, flatMap_cons, adEscape, true_and]

theorem length_adEscape (val : List Octet) : (val.flatMap adEscape).length = val.length + val.countP needEscapeAD := by
  induction val with
  | nil => rfl
  | cons c val ih =>
    rw [flatMap_cons, length_append, ih, countP_cons, adEscape, length_cons]
    split <;> simp <;> omega

def Plain (rdn : LDAPRDN) : Prop := ∀ c ∈ firstValue rdn, needEscapeAD c = false

theorem isDomain_spec (h : isDomain rdn = true) :
    ∃ ava, rdn = [ava] ∧ ava.la_flags ≠ .binary ∧ (cstring ava.la_value).all isPrint = true ∧ ava.la_value ≠ [] := by
  obtain ⟨hdc, hprint⟩ := Bool.and_eq_true_iff.mp h
  rcases rdn with _ | ⟨ava, _ | ⟨ava', rdn⟩⟩
  · cases hdc
  · simp only [isRdnDC, Bool.and_eq_true, decide_eq_true_eq] at hdc
    simp only [notPrintable, firstValue, Bool.not_not, Bool.and_eq_true] at hprint
    refine ⟨ava, rfl, hdc.1, hprint.2, ?_⟩
    rintro hnil
    simp [hnil] at hprint
  · cases hdc

theorem plain_iff (h : isDomain rdn = true) (hnul : ∀ ava ∈ rdn, NoNul ava) :
    ∃ t, rdn2ADstr [] rdn = .ok t ∧ (t.length = (firstValue rdn).length ↔ Plain rdn) ∧ (Plain rdn → t = firstValue rdn) := by
  obtain ⟨ava, rfl, hbin, hprint, -⟩ := isDomain_spec h
  have hchars := print_of_noNul hprint ((hnul ava (by simp)).resolve_left hbin)
  have htext : adAvaText ava = .ok (ava.la_value.flatMap adEscape) := by
    rw [adAvaText, if_neg hbin]
    exact adStr_print hchars
  refine ⟨ava.la_value.flatMap adEscape, by simp [rdn2ADstr, htext, Except.bind, Except.map], ?_, ?_⟩
  · rw [length_adEscape, firstValue, Plain, firstValue]
    simp [countP_eq_zero]
  · intro hplain
    have hmap : ∀ c ∈ ava.la_value, adEscape c = [c] := fun c hc => by
      rw [adEscape, hplain c hc]
      rfl
    rw [firstValue, flatMap_congr hmap, flatMap_singleton']

def rdnSum (f : LDAPAVA → ℕ) (rdn : LDAPRDN) : ℕ := (rdn.map fun ava => f ava + 1).sum

def dnSum (f : LDAPAVA → ℕ) (dn : LDAPDN) : ℕ := (dn.map (rdnSum f)).sum

def written (ava : LDAPAVA) : ℕ := (textOf ava).length

@[simp] theorem rdnSum_cons (f : LDAPAVA → ℕ) (ava : LDAPAVA) (rdn : LDAPRDN) : rdnSum f (ava :: rdn) = f ava + 1 + rdnSum f rdn := rfl

@[simp] theorem dnSum_cons (f : LDAPAVA → ℕ) (rdn : LDAPRDN) (dn : LDAPDN) : dnSum f (rdn :: dn) = rdnSum f rdn + dnSum f dn := rfl

theorem dnSum_append (f : LDAPAVA → ℕ) (dn dn' : LDAPDN) : dnSum f (dn ++ dn') = dnSum f dn + dnSum f dn' := by
  rw [dnSum, map_append, sum_append, dnSum, dnSum]

theorem dnSum_reverse (f : LDAPAVA → ℕ) (dn : LDAPDN) : dnSum f dn.reverse = dnSum f dn := by
  rw [dnSum, map_reverse, sum_reverse, dnSum]

theorem rdnSum_le (h : ∀ ava ∈ rdn, f ava ≤ g ava) : rdnSum f rdn ≤ rdnSum g rdn := by
  induction rdn with
  | nil => exact le_refl _
  | cons ava rdn ih =>
    obtain ⟨hava, hrdn⟩ := List.forall_mem_cons.mp h
    have hle := ih hrdn
    simp only [rdnSum_cons]
    omega

theorem rdnSum_eq (h : ∀ ava ∈ rdn, f ava ≤ g ava) (heq : rdnSum f rdn = rdnSum g rdn) : ∀ ava ∈ rdn, f ava = g ava := by
  induction rdn with
  | nil => simp
  | cons ava rdn ih =>
    obtain ⟨hava, hrdn⟩ := List.forall_mem_cons.mp h
    have hle := rdnSum_le hrdn
    simp only [rdnSum_cons] at heq
    exact List.forall_mem_cons.mpr ⟨by omega, ih hrdn (by omega)⟩

theorem dnSum_le {dn : LDAPDN} (h : ∀ rdn ∈ dn, ∀ ava ∈ rdn, f ava ≤ g ava) : dnSum f dn ≤ dnSum g dn := by
  induction dn with
  | nil => exact le_refl _
  | cons rdn dn ih =>
    obtain ⟨hrdn, hdn⟩ := List.forall_mem_cons.mp h
    have hhead := rdnSum_le hrdn
    have hle := ih hdn
    simp only [dnSum_cons]
    omega

theorem dnSum_eq {dn : LDAPDN} (h : ∀ rdn ∈ dn, ∀ ava ∈ rdn, f ava ≤ g ava) (heq : dnSum f dn = dnSum g dn) :
    ∀ rdn ∈ dn, ∀ ava ∈ rdn, f ava = g ava := by
  induction dn with
  | nil => simp
  | cons rdn dn ih =>
    obtain ⟨hrdn, hdn⟩ := List.forall_mem_cons.mp h
    have hhead := rdnSum_le hrdn
    have hle := dnSum_le hdn
    simp only [dnSum_cons] at heq
    exact List.forall_mem_cons.mpr ⟨rdnSum_eq hrdn (by omega), ih hdn (by omega)⟩

theorem rdn2ADstrlen_ok (h : rdn2ADstrlen rdn = .ok l) :
    (∀ ava ∈ rdn, adAvaLength ava = .ok (measured ava)) ∧ l = rdnSum measured rdn := by
  induction rdn generalizing l with
  | nil => exact ⟨by simp, (Except.ok.inj h).symm⟩
  | cons ava rdn ih =>
    obtain ⟨vl, hvl, h⟩ := bind_ok.mp h
    obtain ⟨l', hl', rfl⟩ := map_ok.mp h
    obtain ⟨hrdn, rfl⟩ := ih hl'
    have hmeasured := adAvaLength_ok hvl
    refine ⟨List.forall_mem_cons.mpr ⟨hmeasured.symm ▸ hvl, hrdn⟩, ?_⟩
    rw [rdnSum_cons, hmeasured]
    omega

theorem adLengths_ok {dn : LDAPDN} (h : adLengths dn = .ok len) :
    (∀ rdn ∈ dn, ∀ ava ∈ rdn, adAvaLength ava = .ok (measured ava)) ∧ len = dnSum measured dn := by
  induction dn generalizing len with
  | nil => exact ⟨by simp, (Except.ok.inj h).symm⟩
  | cons rdn dn ih =>
    obtain ⟨l, hl, h⟩ := bind_ok.mp h
    obtain ⟨len', hlen, rfl⟩ := map_ok.mp h
    obtain ⟨hdn, rfl⟩ := ih hlen
    obtain ⟨hrdn, rfl⟩ := rdn2ADstrlen_ok hl
    exact ⟨List.forall_mem_cons.mpr ⟨hrdn, hdn⟩, rfl⟩

theorem rdn2ADstr_ok (h : rdn2ADstr sep rdn = .ok t) :
    (∀ ava ∈ rdn, adAvaText ava = .ok (textOf ava)) ∧ (rdn ≠ [] → t.length + 1 = sep.length + rdnSum written rdn) := by
  induction rdn generalizing sep t with
  | nil => exact ⟨by simp, fun hne => absurd rfl hne⟩
  | cons ava rdn ih =>
    obtain ⟨v, hv, h⟩ := bind_ok.mp h
    obtain ⟨t', ht', rfl⟩ := map_ok.mp h
    obtain ⟨hrdn, hlen⟩ := ih ht'
    have htext := adAvaText_ok hv
    refine ⟨List.forall_mem_cons.mpr ⟨htext.symm ▸ hv, hrdn⟩, fun _ => ?_⟩
    have hwritten : written ava = v.length := by rw [written, htext]
    rw [rdnSum_cons, hwritten]
    by_cases hne : rdn = []
    · subst hne
      obtain rfl := Except.ok.inj ht'
      simp [rdnSum]
      omega
    · have hrest := hlen hne
      simp only [length_append, length_singleton] at hrest ⊢
      omega

theorem adTexts_ok {dn : LDAPDN} (hrdn : ∀ rdn ∈ dn, rdn ≠ []) (h : adTexts sep dn = .ok t) :
    (∀ rdn ∈ dn, ∀ ava ∈ rdn, adAvaText ava = .ok (textOf ava)) ∧ (dn ≠ [] → t.length + 1 = sep.length + dnSum written dn) := by
  induction dn generalizing sep t with
  | nil => exact ⟨by simp, fun hne => absurd rfl hne⟩
  | cons rdn dn ih =>
    obtain ⟨hne, hdn⟩ := List.forall_mem_cons.mp hrdn
    obtain ⟨v, hv, h⟩ := bind_ok.mp h
    obtain ⟨t', ht', rfl⟩ := map_ok.mp h
    obtain ⟨hrest, hlen⟩ := ih hdn ht'
    obtain ⟨hhead, hv⟩ := rdn2ADstr_ok hv
    have hv := hv hne
    refine ⟨List.forall_mem_cons.mpr ⟨hhead, hrest⟩, fun _ => ?_⟩
    rw [dnSum_cons]
    by_cases hnil : dn = []
    · subst hnil
      obtain rfl := Except.ok.inj ht'
      simp only [dnSum, map_nil, sum_nil, length_append, length_nil]
      omega
    · have hlen := hlen hnil
      simp only [length_append, length_singleton] at hlen ⊢
      omega

theorem rdn2ADstr_of_ok (h : ∀ ava ∈ rdn, ∃ v, adAvaText ava = .ok v) (sep : List Octet) : ∃ t, rdn2ADstr sep rdn = .ok t := by
  induction rdn generalizing sep with
  | nil => exact ⟨[], rfl⟩
  | cons ava rdn ih =>
    obtain ⟨⟨v, hv⟩, hrdn⟩ := List.forall_mem_cons.mp h
    obtain ⟨t, ht⟩ := ih hrdn [ascii ',']
    exact ⟨sep ++ v ++ t, by simp only [rdn2ADstr, hv, ht, Except.bind, Except.map]⟩

theorem adTexts_of_ok {dn : LDAPDN} (h : ∀ rdn ∈ dn, ∀ ava ∈ rdn, ∃ v, adAvaText ava = .ok v) (sep : List Octet) :
    ∃ t, adTexts sep dn = .ok t := by
  induction dn generalizing sep with
  | nil => exact ⟨[], rfl⟩
  | cons rdn dn ih =>
    obtain ⟨hrdn, hdn⟩ := List.forall_mem_cons.mp h
    obtain ⟨v, hv⟩ := rdn2ADstr_of_ok hrdn sep
    obtain ⟨t, ht⟩ := ih hdn [ascii '/']
    exact ⟨v ++ t, by simp only [adTexts, hv, ht, Except.bind, Except.map]⟩

theorem adTexts_refused (sep sep' : List Octet) (dn : LDAPDN) (h : adTexts sep dn = .error .refused) :
    adTexts sep' dn = .error .refused := by
  cases dn with
  | nil => cases h
  | cons rdn dn =>
    cases rdn with
    | nil => exact h
    | cons ava rdn =>
      simp only [adTexts, rdn2ADstr] at h ⊢
      cases hv : adAvaText ava with
      | error e => simpa [hv, Except.bind] using h
      | ok v =>
        cases hr : rdn2ADstr [ascii ','] rdn with
        | error e => simpa [hv, hr, Except.bind, Except.map] using h
        | ok t =>
          cases hd : adTexts [ascii '/'] dn with
          | error e => simpa [hv, hr, hd, Except.bind, Except.map] using h
          | ok ts => simp [hv, hr, hd, Except.bind, Except.map] at h

def fits (l : ℕ) : List ℕ → Bool
  | [] => true
  | n :: ns => l ≤ n && fits (n + 1 + l) ns

def prepend (str : List Octet) (vs : List (List Octet)) : List Octet := vs.foldl (fun str v => v ++ ascii '.' :: str) str

theorem joined_pair (sep : Octet) (xs : List (List Octet)) (v str : List Octet) :
    joined sep (xs ++ [v, str]) = joined sep (xs ++ [v ++ sep :: str]) := by
  induction xs with
  | nil => rfl
  | cons x xs ih =>
    cases xs with
    | nil => rfl
    | cons y xs =>
      simp only [cons_append, joined] at ih ⊢
      rw [ih]

theorem prepend_eq (str : List Octet) (vs : List (List Octet)) : prepend str vs = joined (ascii '.') (vs.reverse ++ [str]) := by
  induction vs generalizing str with
  | nil => rfl
  | cons v vs ih =>
    have hstep : prepend str (v :: vs) = prepend (v ++ ascii '.' :: str) vs := rfl
    rw [hstep, ih, ← joined_pair, reverse_cons, append_assoc]
    rfl

theorem length_joined_eq (sep : Octet) {ts : List (List Octet)} (hne : ts ≠ []) :
    (joined sep ts).length + 1 = (ts.map fun t => t.length + 1).sum := by
  induction ts with
  | nil => exact absurd rfl hne
  | cons t ts ih =>
    cases ts with
    | nil => simp [joined]
    | cons u ts =>
      have hrest := ih (by simp)
      simp only [joined, length_append, length_cons, map_cons, sum_cons] at hrest ⊢
      omega

def valueLength (rdn : LDAPRDN) : ℕ := (firstValue rdn).length

theorem dn2domain_loop (str : List Octet) (rs : LDAPDN) : dn2domain str true false rs =
    if fits str.length ((rs.takeWhile isDomain).map valueLength) then
      .ok (!(rs.dropWhile isDomain).head?.any isRdnDC, prepend str ((rs.takeWhile isDomain).map firstValue), rs.dropWhile isDomain)
    else .error .undefined := by
  induction rs generalizing str with
  | nil => rfl
  | cons rdn rs ih =>
    rw [dn2domain]
    cases hdc : isRdnDC rdn with
    | false => simp [isDomain, hdc, fits, prepend]
    | true =>
      cases hprint : notPrintable (firstValue rdn) with
      | true => simp [isDomain, hdc, hprint, fits, prepend]
      | false =>
        have hdomain : isDomain rdn = true := by simp [isDomain, hdc, hprint]
        simp only [Bool.true_eq_false, Bool.false_eq_true, if_false, takeWhile_cons_of_pos hdomain,
          dropWhile_cons_of_pos hdomain, map_cons, fits]
        have hlen : (firstValue rdn ++ ascii '.' :: str).length = valueLength rdn + 1 + str.length := by
          rw [length_append, length_cons, valueLength]
          omega
        by_cases hlt : (firstValue rdn).length < str.length
        · have hle : ¬ str.length ≤ valueLength rdn := not_le.mpr hlt
          simp [hlt, hle]
        · have hle : str.length ≤ valueLength rdn := not_lt.mp hlt
          rw [if_neg hlt, ih, hlen]
          simp only [hle, decide_true, Bool.true_and]
          rfl

/-- The components that `dn2domain` collects, and what it leaves. -/
def domainRun (dn : LDAPDN) : LDAPDN := if dn.length = 1 then [] else dn.reverse.takeWhile isDomain

def others (dn : LDAPDN) : LDAPDN := if dn.length = 1 then dn.reverse else dn.reverse.dropWhile isDomain

def givesUp (dn : LDAPDN) : Bool := !(domainRun dn).isEmpty && (others dn).head?.any isRdnDC

def hasDomain (dn : LDAPDN) : Bool := !(domainRun dn).isEmpty && !(others dn).head?.any isRdnDC

def noOverlap (dn : LDAPDN) : Bool :=
  match (domainRun dn).map valueLength with
  | [] => true
  | n :: ns => fits n ns

theorem dn2domain_eq (dn : LDAPDN) :
    (if dn.length = 1 then .ok (false, [], dn.reverse) else dn2domain [] false true dn.reverse) =
      if noOverlap dn then
        .ok (hasDomain dn, joined (ascii '.') ((domainRun dn).map firstValue).reverse, others dn)
      else .error .undefined := by
  unfold noOverlap hasDomain domainRun others
  by_cases hone : dn.length = 1
  · simp [hone, joined]
  · simp only [if_neg hone]
    cases dn.reverse with
    | nil => rfl
    | cons rdn rs =>
      rw [dn2domain]
      cases hdc : isRdnDC rdn with
      | false => simp [isDomain, hdc, joined]
      | true =>
        cases hprint : notPrintable (firstValue rdn) with
        | true => simp [isDomain, hdc, hprint, joined]
        | false =>
          have hdomain : isDomain rdn = true := by simp [isDomain, hdc, hprint]
          simp only [Bool.true_eq_false, Bool.false_eq_true, if_false, if_true, takeWhile_cons_of_pos hdomain,
            dropWhile_cons_of_pos hdomain, map_cons]
          rw [dn2domain_loop, prepend_eq, reverse_cons]
          rfl

theorem adDn2bv_eq (pedantic : Bool) {dn : LDAPDN} (hne : dn ≠ []) : adDn2bv pedantic dn =
    (adLengths dn).bind fun len =>
      if noOverlap dn then
        if hasDomain dn then
          (adTexts [ascii '/'] (others dn)).map fun t =>
            ⟨len - 1, joined (ascii '.') ((domainRun dn).map firstValue).reverse ++ t, (others dn).isEmpty⟩
        else if pedantic then .error .refused
        else (adTexts [] (others dn)).map fun t => ⟨len - 1, t, true⟩
      else .error .undefined := by
  rw [adDn2bv, if_neg hne]
  simp only [dn2domain_eq]
  congr 1
  funext len
  cases noOverlap dn <;> rfl

theorem run_append_others (dn : LDAPDN) : domainRun dn ++ others dn = dn.reverse := by
  unfold domainRun others
  split
  · rfl
  · exact takeWhile_append_dropWhile

theorem dnSum_run (f : LDAPAVA → ℕ) (dn : LDAPDN) : dnSum f dn = dnSum f (domainRun dn) + dnSum f (others dn) := by
  rw [← dnSum_append, run_append_others, dnSum_reverse]

theorem isDomain_of_mem {dn : LDAPDN} (h : rdn ∈ domainRun dn) : isDomain rdn = true := by
  unfold domainRun at h
  split at h
  · cases h
  · exact mem_takeWhile_imp h

theorem mem_run {dn : LDAPDN} (h : rdn ∈ domainRun dn) : rdn ∈ dn := by
  rw [← mem_reverse, ← run_append_others]
  exact mem_append_left _ h

theorem mem_others {dn : LDAPDN} (h : rdn ∈ others dn) : rdn ∈ dn := by
  rw [← mem_reverse, ← run_append_others]
  exact mem_append_right _ h

/-! ## The text -/

theorem mapM_ok {rs : LDAPDN} {ds : List (List Octet)} (hrdn : ∀ rdn ∈ rs, rdn ≠ []) (h : rs.mapM (rdn2ADstr []) = Except.ok ds) :
    (∀ rdn ∈ rs, ∀ ava ∈ rdn, adAvaText ava = .ok (textOf ava)) ∧ (ds.map fun t => t.length + 1).sum = dnSum written rs ∧
      ds.length = rs.length := by
  induction rs generalizing ds with
  | nil =>
    obtain rfl : [] = ds := Except.ok.inj h
    exact ⟨by simp, rfl, rfl⟩
  | cons rdn rs ih =>
    obtain ⟨hne, hrs⟩ := List.forall_mem_cons.mp hrdn
    rw [mapM_cons] at h
    obtain ⟨t, ht, h⟩ := bind_ok.mp h
    obtain ⟨ts, hts, h⟩ := bind_ok.mp h
    obtain rfl : t :: ts = ds := Except.ok.inj h
    obtain ⟨htexts, hsum, hlen⟩ := ih hrs hts
    obtain ⟨hhead, ht⟩ := rdn2ADstr_ok ht
    have ht := ht hne
    refine ⟨List.forall_mem_cons.mpr ⟨hhead, htexts⟩, ?_, congrArg (· + 1) hlen⟩
    rw [map_cons, sum_cons, hsum, dnSum_cons, ht]
    simp

theorem mapM_of_ok {rs : LDAPDN} {f : LDAPRDN → List Octet} (h : ∀ rdn ∈ rs, rdn2ADstr [] rdn = .ok (f rdn)) :
    rs.mapM (rdn2ADstr []) = Except.ok (rs.map f) := by
  induction rs with
  | nil => rfl
  | cons rdn rs ih =>
    obtain ⟨hrdn, hrs⟩ := List.forall_mem_cons.mp h
    rw [mapM_cons, hrdn, ih hrs]
    rfl

theorem adText_ok {dn : LDAPDN} (hne : dn ≠ []) (hrdn : ∀ rdn ∈ dn, rdn ≠ []) (h : adText dn = .ok t) :
    (∀ rdn ∈ dn, ∀ ava ∈ rdn, adAvaText ava = .ok (textOf ava)) ∧ t.length + 1 = dnSum written dn := by
  have happ : dn.reverse.takeWhile isDomain ++ dn.reverse.dropWhile isDomain = dn.reverse := takeWhile_append_dropWhile
  have hrs : dn.reverse ≠ [] := by simpa using hne
  have hsum : dnSum written dn = dnSum written (dn.reverse.takeWhile isDomain) + dnSum written (dn.reverse.dropWhile isDomain) := by
    rw [← dnSum_append, happ, dnSum_reverse]
  have hmem : ∀ rdn, rdn ∈ dn ↔ rdn ∈ dn.reverse.takeWhile isDomain ∨ rdn ∈ dn.reverse.dropWhile isDomain := fun rdn => by
    rw [← mem_append, happ, mem_reverse]
  rw [adText] at h
  generalize dn.reverse.takeWhile isDomain = run at *
  generalize dn.reverse.dropWhile isDomain = rest at *
  obtain ⟨ds, hds, h⟩ := bind_ok.mp h
  obtain ⟨t', ht', rfl⟩ := map_ok.mp h
  obtain ⟨hrun, hdsSum, hdsLen⟩ := mapM_ok (fun rdn hr => hrdn rdn ((hmem rdn).mpr (.inl hr))) hds
  obtain ⟨hrest, hlen⟩ := adTexts_ok (fun rdn hr => hrdn rdn ((hmem rdn).mpr (.inr hr))) ht'
  refine ⟨fun rdn hr => ((hmem rdn).mp hr).elim (hrun rdn) (hrest rdn), ?_⟩
  rw [hsum, length_append]
  by_cases hnil : run = []
  · subst hnil
    obtain rfl := List.length_eq_zero_iff.mp hdsLen
    have hrestne : rest ≠ [] := by
      rintro rfl
      exact hrs happ.symm
    have hlen := hlen hrestne
    simp only [if_pos, length_nil] at hlen
    simp only [reverse_nil, joined, length_nil, dnSum, map_nil, sum_nil] at hlen ⊢
    omega
  · have hdsne : ds.reverse ≠ [] := by
      intro hds'
      rw [reverse_eq_nil_iff] at hds'
      subst hds'
      exact hnil (List.length_eq_zero_iff.mp hdsLen.symm)
    have hjoined := length_joined_eq (ascii '.') hdsne
    rw [map_reverse, sum_reverse, hdsSum] at hjoined
    by_cases hrestnil : rest = []
    · subst hrestnil
      obtain rfl : [] = t' := Except.ok.inj ht'
      simp only [length_nil, dnSum, map_nil, sum_nil] at hjoined ⊢
      omega
    · have hlen := hlen hrestnil
      rw [if_neg hnil, length_singleton] at hlen
      omega

/-- A value is refused when it is measured, or:
the components of the domain do not overlap, and either a domain is asked for and there is none, or a value is refused behind
a NUL, or no character is NUL, all components are taken that are looked at, and none of them has a character to escape. -/
def Complete (pedantic : Bool) (dn : LDAPDN) : Prop :=
  adLengths dn = .error .refused ∨
    (∃ len, adLengths dn = .ok len) ∧ noOverlap dn = true ∧
      (pedantic = true ∧ hasDomain dn = false ∨ adTexts [] (others dn) = .error .refused ∨
        (∀ rdn ∈ dn, ∀ ava ∈ rdn, NoNul ava) ∧ givesUp dn = false ∧ ∀ rdn ∈ domainRun dn, Plain rdn)

variable {pedantic : Bool} {dn : LDAPDN}

theorem texts_of_noNul (hnul : ∀ rdn ∈ dn, ∀ ava ∈ rdn, NoNul ava) (hlen : adLengths dn = .ok len) :
    (∀ rdn ∈ dn, ∀ ava ∈ rdn, ∃ t, adAvaText ava = .ok t) ∧ len = dnSum written dn := by
  obtain ⟨hmeasured, rfl⟩ := adLengths_ok hlen
  have htext : ∀ rdn ∈ dn, ∀ ava ∈ rdn, ∃ t, adAvaText ava = .ok t ∧ t.length = measured ava :=
    fun rdn hr ava ha => (hnul rdn hr ava ha).text (hmeasured rdn hr ava ha)
  have heq : ∀ rdn ∈ dn, ∀ ava ∈ rdn, written ava = measured ava := fun rdn hr ava ha => by
    obtain ⟨t, ht, hlen⟩ := htext rdn hr ava ha
    rw [written, adAvaText_ok ht, hlen]
  refine ⟨fun rdn hr ava ha => ?_, ?_⟩
  · obtain ⟨t, ht, -⟩ := htext rdn hr ava ha
    exact ⟨t, ht⟩
  · exact le_antisymm (dnSum_le fun rdn hr ava ha => (heq rdn hr ava ha).ge) (dnSum_le fun rdn hr ava ha => (heq rdn hr ava ha).le)

theorem noNul_of_length (hlen : adLengths dn = .ok len)
    (htext : ∀ rdn ∈ dn, ∀ ava ∈ rdn, adAvaText ava = .ok (textOf ava)) (heq : len = dnSum written dn) :
    ∀ rdn ∈ dn, ∀ ava ∈ rdn, NoNul ava := by
  obtain ⟨hmeasured, rfl⟩ := adLengths_ok hlen
  have hle : ∀ rdn ∈ dn, ∀ ava ∈ rdn, measured ava ≤ written ava := fun rdn hr ava ha => by
    by_cases hnul : NoNul ava
    · obtain ⟨t, ht, hlen⟩ := hnul.text (hmeasured rdn hr ava ha)
      rw [written, adAvaText_ok ht, hlen]
    · exact (measured_lt hnul (hmeasured rdn hr ava ha) (htext rdn hr ava ha)).le
  intro rdn hr ava ha
  by_contra hnul
  have hlt := measured_lt hnul (hmeasured rdn hr ava ha) (htext rdn hr ava ha)
  exact hlt.ne (dnSum_eq hle heq rdn hr ava ha)

def raw (ava : LDAPAVA) : ℕ := ava.la_value.length

theorem sum_run {run : LDAPDN} (h : ∀ rdn ∈ run, isDomain rdn = true) :
    ((run.map firstValue).map fun t => t.length + 1).sum = dnSum raw run := by
  induction run with
  | nil => rfl
  | cons rdn run ih =>
    obtain ⟨hdomain, hrun⟩ := List.forall_mem_cons.mp h
    obtain ⟨ava, rfl, -, -, -⟩ := isDomain_spec hdomain
    rw [map_cons, map_cons, sum_cons, ih hrun, dnSum_cons]
    rfl

theorem raw_le_written {run : LDAPDN} (h : ∀ rdn ∈ run, isDomain rdn = true)
    (htext : ∀ rdn ∈ run, ∀ ava ∈ rdn, adAvaText ava = .ok (textOf ava)) : ∀ rdn ∈ run, ∀ ava ∈ rdn, raw ava ≤ written ava := by
  intro rdn hr ava ha
  obtain ⟨ava', rfl, hbin, -, -⟩ := isDomain_spec (h rdn hr)
  obtain rfl := List.mem_singleton.mp ha
  have ht := htext _ hr ava mem_cons_self
  rw [adAvaText, if_neg hbin] at ht
  exact adStr_length_le ht

theorem plain_of_written (hrun : ∀ rdn ∈ domainRun dn, ∀ ava ∈ rdn, raw ava = written ava)
    (hnul : ∀ rdn ∈ dn, ∀ ava ∈ rdn, NoNul ava) : ∀ rdn ∈ domainRun dn, Plain rdn := by
  intro rdn hr
  obtain ⟨t, ht, hiff, -⟩ := plain_iff (isDomain_of_mem hr) (hnul rdn (mem_run hr))
  obtain ⟨ava, rfl, -, -, -⟩ := isDomain_spec (isDomain_of_mem hr)
  have hlen := (rdn2ADstr_ok ht).2 (by simp)
  have heq : ava.la_value.length = written ava := hrun _ hr ava mem_cons_self
  refine hiff.mp ?_
  simp only [rdnSum, map_cons, map_nil, sum_cons, sum_nil, length_nil, firstValue] at hlen ⊢
  omega

theorem dnSum_pos (f : LDAPAVA → ℕ) {dn : LDAPDN} (hne : dn ≠ []) (h : ∀ rdn ∈ dn, rdn ≠ []) : 0 < dnSum f dn := by
  obtain ⟨rdn, dn, rfl⟩ := exists_cons_of_ne_nil hne
  obtain ⟨ava, rdn, rfl⟩ := exists_cons_of_ne_nil (h rdn mem_cons_self)
  simp only [dnSum_cons, rdnSum_cons]
  omega

theorem adText_of_run_nil (hne : dn ≠ []) (h : domainRun dn = []) : adText dn = adTexts [] (others dn) := by
  have hothers : others dn = dn.reverse := by simpa [h] using run_append_others dn
  rw [hothers, adText]
  by_cases hone : dn.length = 1
  · obtain ⟨rdn, rfl⟩ := List.length_eq_one_iff.mp hone
    cases hdomain : isDomain rdn with
    | true =>
      rw [reverse_singleton, takeWhile_cons_of_pos hdomain, dropWhile_cons_of_pos hdomain, mapM_cons, adTexts]
      cases rdn2ADstr [] rdn with
      | error e => rfl
      | ok t => simp [bind, pure, Except.bind, Except.pure, Except.map, adTexts, joined]
    | false =>
      have hneg : ¬ isDomain rdn = true := by simp [hdomain]
      rw [reverse_singleton, takeWhile_cons_of_neg hneg, dropWhile_cons_of_neg hneg]
      cases ht : adTexts [] [rdn] <;> simp [pure, Except.bind, Except.pure, Except.map, joined, ht]
  · rw [domainRun, if_neg hone] at h
    have hdrop : dn.reverse.dropWhile isDomain = dn.reverse := by
      simpa [h] using @takeWhile_append_dropWhile _ isDomain dn.reverse
    simp only [h, hdrop, if_true]
    cases ht : adTexts [] dn.reverse <;> simp [pure, Except.bind, Except.pure, Except.map, joined]

theorem adText_of_plain (h : domainRun dn ≠ []) (hplain : ∀ rdn ∈ domainRun dn, rdn2ADstr [] rdn = .ok (firstValue rdn)) :
    adText dn = (adTexts [ascii '/'] (others dn)).map (joined (ascii '.') ((domainRun dn).map firstValue).reverse ++ ·) := by
  by_cases hone : dn.length = 1
  case pos => exact absurd (by rw [domainRun, if_pos hone]) h
  rw [domainRun, if_neg hone] at h hplain ⊢
  rw [others, if_neg hone, adText]
  simp only [mapM_of_ok hplain, if_neg h]
  rfl

theorem noNul_of_text (hne : dn ≠ []) (hrdn : ∀ rdn ∈ dn, rdn ≠ []) (hlen : adLengths dn = .ok len)
    (htext : adText dn = .ok t) (heq : t.length = len - 1) : ∀ rdn ∈ dn, ∀ ava ∈ rdn, NoNul ava := by
  obtain ⟨htexts, hsum⟩ := adText_ok hne hrdn htext
  have hpos := dnSum_pos measured hne hrdn
  have hmeasured := (adLengths_ok hlen).2
  exact noNul_of_length hlen htexts (by omega)

theorem bv_val_iff {bv : AdBv} (h : bv.written.length = bv.len) : bv.bv_val = t ++ bv.slash ↔ bv.written = t := by
  rw [AdBv.bv_val, ← h, take_length, append_left_inj]

theorem canonical_ok {bv : AdBv} (h : adDn2bv pedantic dn = .ok bv) :
    Canonical pedantic dn ↔ adText dn = .ok bv.written ∧ bv.written.length = bv.len := by
  constructor
  · rintro (hrefused | ⟨bv', t, hbv, ht, hlen, hval⟩)
    · rw [h] at hrefused
      cases hrefused
    · rw [h] at hbv
      obtain rfl := Except.ok.inj hbv
      obtain rfl := (bv_val_iff hlen).mp hval
      exact ⟨ht, hlen⟩
  · rintro ⟨ht, hlen⟩
    exact .inr ⟨bv, bv.written, h, ht, hlen, (bv_val_iff hlen).mpr rfl⟩

theorem canonical_error {e : Trap} (h : adDn2bv pedantic dn = .error e) : Canonical pedantic dn ↔ e = .refused := by
  constructor
  · rintro (hrefused | ⟨bv, t, hbv, -⟩)
    · rw [h] at hrefused
      exact Except.error.inj hrefused
    · rw [h] at hbv
      cases hbv
  · rintro rfl
    exact .inl h

theorem error_complete (hlen : adLengths dn = .ok len) {e : Trap} (ht : adTexts sep (others dn) = .error e) (P : Prop) :
    e = .refused ↔ adTexts [] (others dn) = .error .refused ∨ (∀ rdn ∈ dn, ∀ ava ∈ rdn, NoNul ava) ∧ P := by
  constructor
  · rintro rfl
    exact .inl (adTexts_refused sep [] _ ht)
  · rintro (hrefused | ⟨hnul, -⟩)
    · rw [adTexts_refused [] sep _ hrefused] at ht
      exact (Except.error.inj ht).symm
    · obtain ⟨t, ht'⟩ := adTexts_of_ok (fun rdn hr => (texts_of_noNul hnul hlen).1 rdn (mem_others hr)) sep
      rw [ht'] at ht
      cases ht

theorem domain_complete (hne : dn ≠ []) (hrdn : ∀ rdn ∈ dn, rdn ≠ []) (hlen : adLengths dn = .ok len)
    (hrun : domainRun dn ≠ []) (ht : adTexts [ascii '/'] (others dn) = .ok t) :
    (adText dn = .ok (joined (ascii '.') ((domainRun dn).map firstValue).reverse ++ t) ∧
        (joined (ascii '.') ((domainRun dn).map firstValue).reverse ++ t).length = len - 1) ↔
      (∀ rdn ∈ dn, ∀ ava ∈ rdn, NoNul ava) ∧ ∀ rdn ∈ domainRun dn, Plain rdn := by
  constructor
  · rintro ⟨htext, hwritten⟩
    have hnul := noNul_of_text hne hrdn hlen htext hwritten
    obtain ⟨htexts, hsum⟩ := adText_ok hne hrdn htext
    refine ⟨hnul, plain_of_written ?_ hnul⟩
    have hjoined := @length_joined_eq (ascii '.') ((domainRun dn).map firstValue).reverse (by simpa using hrun)
    rw [map_reverse, sum_reverse, sum_run fun rdn hr => isDomain_of_mem hr] at hjoined
    have hrest : t.length = dnSum written (others dn) := by
      obtain ⟨-, hothers⟩ := adTexts_ok (fun rdn hr => hrdn rdn (mem_others hr)) ht
      by_cases hnil : others dn = []
      · rw [hnil] at ht ⊢
        obtain rfl := Except.ok.inj ht
        rfl
      · have := hothers hnil
        rw [length_singleton] at this
        omega
    rw [dnSum_run, length_append] at hsum
    exact dnSum_eq (raw_le_written (fun rdn hr => isDomain_of_mem hr) fun rdn hr => htexts rdn (mem_run hr)) (by omega)
  · rintro ⟨hnul, hplain⟩
    have htexts : ∀ rdn ∈ domainRun dn, rdn2ADstr [] rdn = .ok (firstValue rdn) := fun rdn hr => by
      obtain ⟨v, hv, -, heq⟩ := plain_iff (isDomain_of_mem hr) (hnul rdn (mem_run hr))
      rw [hv, heq (hplain rdn hr)]
    have htext : adText dn = .ok (joined (ascii '.') ((domainRun dn).map firstValue).reverse ++ t) := by
      rw [adText_of_plain hrun htexts, ht]
      rfl
    have hsum := (adText_ok hne hrdn htext).2
    have heq := (texts_of_noNul hnul hlen).2
    exact ⟨htext, by omega⟩

theorem plain_complete (hne : dn ≠ []) (hrdn : ∀ rdn ∈ dn, rdn ≠ []) (hlen : adLengths dn = .ok len)
    (hdomain : hasDomain dn = false) (ht : adTexts [] (others dn) = .ok t) :
    (adText dn = .ok t ∧ t.length = len - 1) ↔
      (∀ rdn ∈ dn, ∀ ava ∈ rdn, NoNul ava) ∧ givesUp dn = false ∧ ∀ rdn ∈ domainRun dn, Plain rdn := by
  constructor
  · rintro ⟨htext, hwritten⟩
    have hnil : domainRun dn = [] := by
      by_contra hrun
      have hpos := dnSum_pos written hrun fun rdn hr => hrdn rdn (mem_run hr)
      have hothers : others dn ≠ [] := by
        intro hnil
        simp [hasDomain, hnil, hrun] at hdomain
      have hsum := (adText_ok hne hrdn htext).2
      have hrest := (adTexts_ok (fun rdn hr => hrdn rdn (mem_others hr)) ht).2 hothers
      rw [dnSum_run] at hsum
      simp only [length_nil] at hrest
      omega
    exact ⟨noNul_of_text hne hrdn hlen htext hwritten, by simp [givesUp, hnil], by simp [hnil]⟩
  · rintro ⟨hnul, hgives, -⟩
    have hnil : domainRun dn = [] := by
      by_contra hrun
      simp only [hasDomain, givesUp, List.isEmpty_eq_false_iff.mpr hrun, Bool.not_false, Bool.true_and] at hdomain hgives
      rw [hgives] at hdomain
      cases hdomain
    have htext : adText dn = .ok t := by rw [adText_of_run_nil hne hnil, ht]
    have hsum := (adText_ok hne hrdn htext).2
    have heq := (texts_of_noNul hnul hlen).2
    exact ⟨htext, by omega⟩

/-- `givenName=Bill+sn=Gates,ou=People,dc=microsoft,dc=com` -/
def billGates : LDAPDN :=
  [[⟨Ascii.text "givenName", Ascii.text "Bill", .string⟩, ⟨Ascii.text "sn", Ascii.text "Gates", .string⟩],
    [⟨Ascii.text "ou", Ascii.text "People", .string⟩], [⟨Ascii.text "dc", Ascii.text "microsoft", .string⟩],
    [⟨Ascii.text "dc", Ascii.text "com", .string⟩]]

/-- `ou=People,dc=:x,dc=com`. The component `:x` is not printable in LDIF. -/
def unprintable : LDAPDN :=
  [[⟨Ascii.text "ou", Ascii.text "People", .string⟩], [⟨Ascii.text "dc", Ascii.text ":x", .string⟩],
    [⟨Ascii.text "dc", Ascii.text "com", .string⟩]]

end Getdn
end Libreldap
end ReOpenLDAP
