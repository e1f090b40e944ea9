import ReOpenLDAP.Lib.Decimal

/-!
# Libreldap.Oid

`ber_encode_oid` and `ber_decode_oid`: object identifiers as text and as octets.

Sizes are those of a 64-bit machine. A write behind the buffer has no result, and the inner none is the error -1.
-/

namespace ReOpenLDAP
namespace Libreldap

open Decimal List Option

def ULONG_MAX : ℕ := 2 ^ 64 - 1

def LBER_OID_COMPONENT_MAX : ℕ := ULONG_MAX - 128

/-- `strtoul(ptr, &end, 10)` at a digit, and what is behind the digits. -/
def strtoul (ptr : List Char) : ℕ × List Char :=
  (min (number (ptr.takeWhile Char.isDigit)) ULONG_MAX, ptr.dropWhile Char.isDigit)

/-- `isdigit((unsigned char)*ptr)`. Behind the memory that is given there is a NUL. -/
def atDigit (ptr : List Char) : Bool := ptr.head?.any Char.isDigit

/-- `do { der[len++] = (val & 0xff) | 0x80; } while ((val >>= 7) != 0)` -/
def septets (val : ℕ) : List ℕ :=
  ((val &&& 0xff) ||| 0x80) :: if _h : val >>> 7 = 0 then [] else septets (val >>> 7)
termination_by val
decreasing_by
  rw [Nat.shiftRight_eq_div_pow] at *
  omega

/-- The octets of a component: `der[0] &= 0x7f`, and then they are reversed. -/
def base128 (val : ℕ) : List ℕ := ((septets val).modifyHead (· &&& 0x7f)).reverse

/-- The loop of `ber_encode_oid`. The memory from `ptr` on is given; what of it is behind `inend` is as long as `behind`. -/
def encodeLoop (room behind : ℕ) (val : ℕ) (ptr : List Char) (der : List ℕ) : Option (Option (List ℕ)) :=
  if ptr.length < behind then some none
  else if room < der.length + (base128 val).length then none
  else
    let der := der ++ base128 val
    if ptr.length = behind then some (some der)
    else if _h : ptr.head? = some '.' ∧ atDigit ptr.tail = true then
      let next := strtoul ptr.tail
      if LBER_OID_COMPONENT_MAX < next.1 then some none else encodeLoop room behind next.1 next.2 der
    else some none
termination_by ptr.length
decreasing_by
  obtain ⟨hdot, -⟩ := _h
  have hdrop := (dropWhile_suffix Char.isDigit (l := ptr.tail)).length_le
  have hpos : 0 < ptr.length := length_pos_of_mem (List.mem_of_mem_head? hdot)
  simp only [strtoul, length_tail] at *
  omega

/-- `ber_encode_oid` with a buffer of `room` octets; `after` is the memory behind the text. -/
def encodeOid (s after : List Char) (room : ℕ) : Option (Option (List ℕ)) :=
  if room < s.length / 2 then some none
  else
    let ptr := s ++ after
    if atDigit ptr = false then some none
    else
      let first := strtoul ptr
      if 2 < first.1 then some none
      else if first.2.head? = some '.' ∧ atDigit first.2.tail = true then
        let second := strtoul first.2.tail
        if (if first.1 < 2 then 39 else LBER_OID_COMPONENT_MAX - 80) < second.1 then some none
        else encodeLoop room after.length (second.1 + first.1 * 40) second.2 []
      else some none

/-- `sprintf` behind the text, with the NUL, into a buffer of `room` characters. -/
def sprintf (room : ℕ) (text s : List Char) : Option (List Char) :=
  if room < text.length + s.length + 1 then none else some (text ++ s)

def printComponent (room val : ℕ) : Option (List Char) → Option (List Char)
  | some text => sprintf room text ('.' :: Nat.toDigits 10 val)
  | none =>
    let val1 := if val < 80 then val / 40 else 2
    (sprintf room [] (Nat.toDigits 10 val1)).bind fun text => sprintf room text ('.' :: Nat.toDigits 10 (val - val1 * 40))

/-- The loop of `ber_decode_oid`; there is no text while `ptr` is a null pointer. -/
def decodeLoop (room : ℕ) : List ℕ → ℕ → Option (List Char) → Option (Option (List Char))
  | [], val, text => some (if val ≠ 0 then none else text)
  | octet :: der, val, text =>
    let val := val ||| (octet &&& 0x7f)
    if octet &&& 0x80 = 0 then (printComponent room val text).bind fun text => decodeLoop room der 0 (some text)
    else if (val + ULONG_MAX) % 2 ^ 64 < LBER_OID_COMPONENT_MAX >>> 7 then decodeLoop room der (val <<< 7 % 2 ^ 64) text
    else some none

/-- `ber_decode_oid` with a buffer of `room` characters. -/
def decodeOid (der : List ℕ) (room : ℕ) : Option (Option (List Char)) :=
  if (room + 3) / 4 ≤ der.length then some none else decodeLoop room der 0 none

def high (u : ℕ) : List ℕ := if _h : u = 0 then [] else high (u / 128) ++ [u % 128 + 128]
termination_by u
decreasing_by omega

theorem high_zero : high 0 = [] := by rw [high, dif_pos rfl]

theorem high_pos {u : ℕ} (h : u ≠ 0) : high u = high (u / 128) ++ [u % 128 + 128] := by rw [high, dif_neg h]

theorem octet_or : ∀ b < 256, (b ||| 0x80) = b % 128 + 128 ∧ (b % 128 + 128) &&& 0x7f = b % 128 ∧ b &&& 0x7f = b % 128 ∧
    (b &&& 0x80 = 0 ↔ b < 128) := by decide +kernel

theorem septets_reverse (val : ℕ) : (septets val).reverse = high (val / 128) ++ [val % 128 + 128] := by
  induction val using Nat.strong_induction_on with
  | _ val ih =>
    have hfirst : (val &&& 0xff) ||| 0x80 = val % 128 + 128 := by
      rw [show 0xff = 2 ^ 8 - 1 by rfl, Nat.and_two_pow_sub_one_eq_mod, (octet_or _ (Nat.mod_lt _ (by decide))).1]
      omega
    rw [septets, hfirst, reverse_cons, Nat.shiftRight_eq_div_pow]
    split
    · next h => rw [show val / 128 = 0 from h, high_zero]; rfl
    · next h =>
      rw [ih _ (by omega), high_pos (show val / 128 ≠ 0 from h)]

theorem base128_eq (val : ℕ) : base128 val = high (val / 128) ++ [val % 128] := by
  have hrev := septets_reverse val
  rw [base128]
  cases h : septets val with
  | nil =>
    rw [h] at hrev
    simp at hrev
  | cons b bs =>
    rw [h, reverse_cons] at hrev
    obtain ⟨hbs, hb⟩ := append_inj' hrev rfl
    have hand := (octet_or (val % 128) (by omega)).2.1
    rw [Nat.mod_mod] at hand
    rw [modifyHead_cons, reverse_cons, hbs, (List.cons.inj hb).1, hand]

theorem high_lt (u : ℕ) : ∀ b ∈ high u, b < 256 := by
  induction u using Nat.strong_induction_on with
  | _ u ih =>
    by_cases hu : u = 0
    · simp [hu, high_zero]
    · rw [high_pos hu, forall_mem_append, forall_mem_singleton]
      exact ⟨ih (u / 128) (by omega), by omega⟩

theorem base128_lt (v : ℕ) : ∀ b ∈ base128 v, b < 256 := by
  rw [base128_eq, forall_mem_append, forall_mem_singleton]
  exact ⟨high_lt _, by omega⟩

theorem length_high {n u : ℕ} (h : u < 128 ^ n) : (high u).length ≤ n := by
  induction n generalizing u with
  | zero =>
    obtain rfl : u = 0 := by omega
    rw [high_zero]
    exact Nat.le_refl 0
  | succ n ih =>
    by_cases hu : u = 0
    · rw [hu, high_zero]
      exact Nat.zero_le _
    · rw [high_pos hu, length_append, length_singleton]
      exact Nat.succ_le_succ (ih (Nat.div_lt_of_lt_mul (by rwa [← Nat.pow_succ'])))

theorem length_base128 {n v : ℕ} (h : v < 128 ^ (n + 1)) : (base128 v).length ≤ n + 1 := by
  rw [base128_eq, length_append, length_singleton]
  exact Nat.succ_le_succ (length_high (Nat.div_lt_of_lt_mul (by rwa [← Nat.pow_succ'])))

theorem pow_hundred_le (m : ℕ) : 1 ≤ 100 ^ m ∧ 100 ^ m ≤ 128 ^ m :=
  ⟨Nat.one_le_pow _ _ (by decide), Nat.pow_le_pow_left (by decide) m⟩

theorem length_base128_text {d v : ℕ} (hd : 0 < d) :
    (v < 10 ^ d → 2 * (base128 v).length ≤ d + 1) ∧ (v < 10 ^ d + 80 → 2 * (base128 v).length ≤ d + 2) := by
  obtain ⟨m, rfl | rfl⟩ : ∃ m, d = 2 * m + 1 ∨ d = 2 * m + 2 := ⟨(d - 1) / 2, by omega⟩
  · obtain ⟨hone, hle⟩ := pow_hundred_le m
    have hpow : 10 ^ (2 * m + 1) = 100 ^ m * 10 := by rw [Nat.pow_succ, Nat.pow_mul]
    have hpow' : 128 ^ (m + 1) = 128 ^ m * 128 := Nat.pow_succ ..
    constructor
    · intro h
      have := @length_base128 m v (by omega)
      omega
    · intro h
      have := @length_base128 m v (by omega)
      omega
  · obtain ⟨hone, hle⟩ := pow_hundred_le (m + 1)
    have hpow : 10 ^ (2 * m + 2) = 100 ^ (m + 1) := by rw [show 2 * m + 2 = 2 * (m + 1) by omega, Nat.pow_mul]
    have hpow' : 128 ^ (m + 2) = 128 ^ (m + 1) * 128 := Nat.pow_succ ..
    constructor
    · intro h
      have := @length_base128 m v (by omega)
      omega
    · intro h
      have := @length_base128 (m + 1) v (by omega)
      omega

/-! ## The encoder -/

section

variable {room : ℕ} {s after ptr rest : List Char} {der : List ℕ}

theorem strtoul_le (ptr : List Char) : (strtoul ptr).1 < 10 ^ (ptr.takeWhile Char.isDigit).length :=
  Nat.lt_of_le_of_lt (Nat.min_le_left _ _) (number_lt fun _ hc => mem_takeWhile_imp hc)

theorem length_strtoul (ptr : List Char) : (ptr.takeWhile Char.isDigit).length + (strtoul ptr).2.length = ptr.length := by
  rw [← length_append, strtoul, takeWhile_append_dropWhile]

theorem takeWhile_pos (h : atDigit ptr = true) : 0 < (ptr.takeWhile Char.isDigit).length := by
  cases ptr with
  | nil => cases h
  | cons c ptr =>
    rw [takeWhile_cons, if_pos (show c.isDigit = true from h)]
    exact Nat.succ_pos _

theorem room_encode {val : ℕ} (hroom : s.length / 2 ≤ room)
    (hused : 2 * (der.length + (base128 val).length) + ptr.length ≤ s.length + after.length) :
    encodeLoop room after.length val ptr der ≠ none := by
  induction hn : ptr.length using Nat.strong_induction_on generalizing val ptr der with
  | _ n ih =>
    subst hn
    rw [encodeLoop]
    split
    · simp
    · rw [if_neg (by omega)]
      dsimp only
      split
      · simp
      · split
        · next h =>
          obtain ⟨hdot, hdigit⟩ := h
          split
          · simp
          · have hlen := length_strtoul ptr.tail
            have hpos := takeWhile_pos hdigit
            have hptr := length_pos_of_mem (List.mem_of_mem_head? hdot)
            have htwo := (length_base128_text hpos).1 (strtoul_le ptr.tail)
            rw [length_tail] at hlen
            refine ih _ (by omega) ?_ rfl
            rw [length_append]
            omega
        · simp

theorem encodeOid_ne_none (s after : List Char) (room : ℕ) : encodeOid s after room ≠ none := by
  unfold encodeOid
  split
  · simp
  · next hroom =>
    dsimp only
    split
    · simp
    · next hdigits =>
      split
      · simp
      · next hfirst =>
        split
        · next h =>
          obtain ⟨hdot, hdigit⟩ := h
          generalize (if (strtoul (s ++ after)).1 < 2 then 39 else LBER_OID_COMPONENT_MAX - 80) = limit
          split
          · simp
          · have hlen := length_strtoul (s ++ after)
            have hlen' := length_strtoul (strtoul (s ++ after)).2.tail
            have hpos := takeWhile_pos hdigit
            have hptr := length_pos_of_mem (List.mem_of_mem_head? hdot)
            have hfirstpos : 0 < ((s ++ after).takeWhile Char.isDigit).length := takeWhile_pos (by simpa using hdigits)
            have hlt := strtoul_le (strtoul (s ++ after)).2.tail
            have htwo := (@length_base128_text _ ((strtoul (strtoul (s ++ after)).2.tail).1 + (strtoul (s ++ after)).1 * 40)
              hpos).2 (by omega)
            rw [length_tail] at hlen'
            rw [length_append] at hlen
            refine room_encode (Nat.le_of_not_lt hroom) ?_
            rw [length_nil]
            omega
        · simp

theorem strtoul_toDigits {v : ℕ} (hv : v ≤ ULONG_MAX) (hrest : atDigit rest = false) :
    atDigit (Nat.toDigits 10 v ++ rest) = true ∧ strtoul (Nat.toDigits 10 v ++ rest) = (v, rest) := by
  have hall := digits_toDigits v
  have hnone : ∀ c, rest.head? = some c → ¬ c.isDigit = true := by
    intro c hc hd
    rw [atDigit, hc] at hrest
    exact absurd (hd.symm.trans hrest) (by simp)
  have htake : rest.takeWhile Char.isDigit = [] ∧ rest.dropWhile Char.isDigit = rest := by
    cases rest with
    | nil => exact ⟨rfl, rfl⟩
    | cons c rest => exact ⟨takeWhile_cons_of_neg (hnone c rfl), dropWhile_cons_of_neg (hnone c rfl)⟩
  constructor
  · obtain ⟨c, ds, hds⟩ := exists_cons_of_ne_nil (@Nat.toDigits_ne_nil v 10)
    rw [hds] at hall ⊢
    exact hall c mem_cons_self
  · rw [strtoul, takeWhile_append_of_pos hall, dropWhile_append_of_pos hall, htake.1, htake.2, List.append_nil,
      number_toDigits, min_eq_left hv]

def component (v : ℕ) : List Char := '.' :: Nat.toDigits 10 v

theorem atDigit_components {vs : List ℕ} (hafter : atDigit after = false) : atDigit (vs.flatMap component ++ after) = false := by
  cases vs with
  | nil => exact hafter
  | cons v vs => rfl

theorem encodeLoop_text {val : ℕ} {vs : List ℕ} (hvs : ∀ v ∈ vs, v ≤ LBER_OID_COMPONENT_MAX) (hafter : atDigit after = false)
    (hfits : encodeLoop room after.length val (vs.flatMap component ++ after) der ≠ none) :
    encodeLoop room after.length val (vs.flatMap component ++ after) der =
      some (some (der ++ base128 val ++ vs.flatMap base128)) := by
  induction vs generalizing val der with
  | nil =>
    rw [flatMap_nil, List.nil_append, encodeLoop, if_neg (Nat.lt_irrefl _)] at hfits ⊢
    split
    · next h => rw [if_pos h] at hfits; exact absurd rfl hfits
    · simp
  | cons v vs ih =>
    obtain ⟨hv, hvs⟩ := List.forall_mem_cons.mp hvs
    obtain ⟨hdigit, hstrtoul⟩ := @strtoul_toDigits (vs.flatMap component ++ after) v (hv.trans (by decide)) (atDigit_components hafter)
    have hptr : (v :: vs).flatMap component ++ after = '.' :: (Nat.toDigits 10 v ++ (vs.flatMap component ++ after)) := by
      simp [component]
    rw [hptr, encodeLoop, if_neg (by simp; omega)] at hfits ⊢
    split
    · next h => rw [if_pos h] at hfits; exact absurd rfl hfits
    · next h =>
      rw [if_neg h] at hfits
      have hne : ('.' :: (Nat.toDigits 10 v ++ (vs.flatMap component ++ after))).length ≠ after.length := by simp; omega
      simp only [if_neg hne, List.head?_cons, tail_cons, hdigit, and_self, dif_pos, hstrtoul, if_neg (Nat.not_lt.mpr hv)]
        at hfits ⊢
      rw [ih hvs hfits, flatMap_cons, append_assoc, append_assoc]

end

def shown : Option (List Char) → ℕ → List Char
  | some text, v => text ++ component v
  | none, v => Nat.toDigits 10 (if v < 80 then v / 40 else 2) ++ component (v - (if v < 80 then v / 40 else 2) * 40)

def shownAll : Option (List Char) → List ℕ → Option (List Char)
  | text, [] => text
  | text, v :: vs => shownAll (some (shown text v)) vs

section

variable {room u val : ℕ} {der rest : List ℕ} {text : Option (List Char)} {s : List Char}

theorem printComponent_eq {t : List Char} (h : printComponent room val text = some t) : t = shown text val := by
  cases text with
  | some text =>
    obtain ⟨-, h⟩ := Option.ite_none_left_eq_some.mp h
    exact (Option.some.inj h).symm
  | none =>
    obtain ⟨t', h', h⟩ := Option.bind_eq_some_iff.mp h
    obtain ⟨-, h'⟩ := Option.ite_none_left_eq_some.mp h'
    obtain ⟨-, h⟩ := Option.ite_none_left_eq_some.mp h
    rw [← Option.some.inj h, ← Option.some.inj h']
    rfl

theorem or_octet {octet : ℕ} (h : octet < 256) : u * 128 ||| (octet &&& 0x7f) = u * 128 + octet % 128 := by
  rw [(octet_or octet h).2.2.1, Nat.mul_comm]
  exact (@Nat.two_pow_add_eq_or_of_lt 7 _ (Nat.mod_lt octet (by decide)) u).symm

theorem component_max_shift : LBER_OID_COMPONENT_MAX >>> 7 = 144115188075855870 := by decide

theorem decodeLoop_more {octet : ℕ} (hu : u ≤ LBER_OID_COMPONENT_MAX >>> 7) (hlow : 128 ≤ octet) (h : octet < 256) :
    decodeLoop room (octet :: der) (u * 128) text =
      if u * 128 + octet % 128 ≠ 0 ∧ u * 128 + octet % 128 ≤ LBER_OID_COMPONENT_MAX >>> 7 then
        decodeLoop room der ((u * 128 + octet % 128) * 128) text
      else some none := by
  have hbit : ¬ octet &&& 0x80 = 0 := fun hzero => Nat.not_lt.mpr hlow ((octet_or octet h).2.2.2.mp hzero)
  rw [component_max_shift] at hu
  have hiff : (u * 128 + octet % 128 + ULONG_MAX) % 2 ^ 64 < LBER_OID_COMPONENT_MAX >>> 7 ↔
      u * 128 + octet % 128 ≠ 0 ∧ u * 128 + octet % 128 ≤ LBER_OID_COMPONENT_MAX >>> 7 := by
    rw [component_max_shift, ULONG_MAX]
    omega
  simp only [decodeLoop, or_octet h, if_neg hbit, hiff]
  by_cases hc : u * 128 + octet % 128 ≠ 0 ∧ u * 128 + octet % 128 ≤ LBER_OID_COMPONENT_MAX >>> 7
  · rw [if_pos hc, if_pos hc, Nat.shiftLeft_eq, Nat.mod_eq_of_lt]
    rw [component_max_shift] at hc
    omega
  · rw [if_neg hc, if_neg hc]

theorem decodeLoop_last {octet : ℕ} (h : octet < 128) : decodeLoop room (octet :: der) (u * 128) text =
    (printComponent room (u * 128 + octet) text).bind fun text => decodeLoop room der 0 (some text) := by
  have hbit : octet &&& 0x80 = 0 := (octet_or octet (by omega)).2.2.2.mpr h
  simp only [decodeLoop, or_octet (show octet < 256 by omega), if_pos hbit, Nat.mod_eq_of_lt h]

theorem decodeLoop_high (hu : u ≤ LBER_OID_COMPONENT_MAX >>> 7) :
    decodeLoop room (high u ++ der) 0 text = decodeLoop room der (u * 128) text := by
  induction u using Nat.strong_induction_on generalizing der with
  | _ u ih =>
    by_cases hzero : u = 0
    · rw [hzero, high_zero, List.nil_append, Nat.zero_mul]
    · have hval : u / 128 * 128 + (u % 128 + 128) % 128 = u := by omega
      rw [high_pos hzero, append_assoc, singleton_append, ih (u / 128) (by omega) (by omega),
        decodeLoop_more (by omega) (by omega) (by omega), hval, if_pos ⟨hzero, hu⟩]

theorem decodeLoop_octets {vs : List ℕ} (hvs : ∀ v ∈ vs, v ≤ LBER_OID_COMPONENT_MAX)
    (hfits : decodeLoop room (vs.flatMap base128) 0 text ≠ none) :
    decodeLoop room (vs.flatMap base128) 0 text = some (shownAll text vs) := by
  induction vs generalizing text with
  | nil => rfl
  | cons v vs ih =>
    obtain ⟨hv, hvs⟩ := List.forall_mem_cons.mp hvs
    have hhigh : v / 128 ≤ LBER_OID_COMPONENT_MAX >>> 7 := by
      rw [Nat.shiftRight_eq_div_pow]
      exact Nat.div_le_div_right hv
    rw [flatMap_cons, base128_eq, append_assoc, singleton_append, decodeLoop_high hhigh,
      decodeLoop_last (Nat.mod_lt v (by decide)), Nat.div_add_mod'] at hfits ⊢
    cases hprint : printComponent room v text with
    | none =>
      rw [hprint] at hfits
      exact absurd rfl hfits
    | some t =>
      rw [hprint, bind_some] at hfits
      rw [bind_some, ih hvs hfits, printComponent_eq hprint, shownAll]

theorem decodeLoop_sound (hder : ∀ b ∈ der, b < 256) (hu : u ≤ LBER_OID_COMPONENT_MAX >>> 7)
    (h : decodeLoop room der (u * 128) text = some (some s)) :
    ∃ vs, high u ++ der = vs.flatMap base128 ∧ (∀ v ∈ vs, v ≤ LBER_OID_COMPONENT_MAX) ∧ shownAll text vs = some s := by
  induction der generalizing u text with
  | nil =>
    obtain rfl : u = 0 := by
      by_contra hzero
      rw [decodeLoop, if_pos (by omega)] at h
      cases h
    exact ⟨[], by rw [high_zero]; rfl, by simp, Option.some.inj h⟩
  | cons octet der ih =>
    obtain ⟨hoctet, hder⟩ := List.forall_mem_cons.mp hder
    by_cases hlow : octet < 128
    · rw [decodeLoop_last hlow] at h
      obtain ⟨t, hprint, h⟩ := Option.bind_eq_some_iff.mp h
      obtain ⟨vs, hvs, hle, hs⟩ := @ih 0 _ hder (Nat.zero_le _) h
      rw [high_zero, List.nil_append] at hvs
      refine ⟨(u * 128 + octet) :: vs, ?_, List.forall_mem_cons.mpr ⟨?_, hle⟩, ?_⟩
      · rw [flatMap_cons, ← hvs, base128_eq, show (u * 128 + octet) / 128 = u by omega,
          show (u * 128 + octet) % 128 = octet by omega, append_assoc, singleton_append]
      · have hmax : LBER_OID_COMPONENT_MAX = 18446744073709551487 := rfl
        rw [component_max_shift] at hu
        omega
      · rw [shownAll, ← printComponent_eq hprint]
        exact hs
    · rw [decodeLoop_more hu (Nat.le_of_not_lt hlow) hoctet] at h
      split at h
      · next hc =>
        obtain ⟨vs, hvs, hle, hs⟩ := ih hder hc.2 h
        refine ⟨vs, ?_, hle, hs⟩
        rw [← hvs, high_pos hc.1, show (u * 128 + octet % 128) / 128 = u by omega,
          show (u * 128 + octet % 128) % 128 + 128 = octet by omega, append_assoc, singleton_append]
      · cases h

theorem length_toDigits_le {d v : ℕ} (hd : 0 < d) (h : v < 10 ^ d) : (Nat.toDigits 10 v).length ≤ d :=
  (Nat.length_toDigits_le_iff (by decide) hd).mpr h

theorem pow_le_thousand (k : ℕ) : 128 ^ k ≤ 10 ^ (3 * k) := by
  rw [Nat.pow_mul]
  exact Nat.pow_le_pow_left (by decide) k

theorem room_print {k : ℕ} (hval : val < 128 ^ (k + 1)) (hroom : (text.getD []).length + 4 * (k + 1) + 1 ≤ room) :
    ∃ t, printComponent room val text = some t ∧ t.length ≤ (text.getD []).length + 4 * (k + 1) := by
  have hpow := pow_le_thousand (k + 1)
  have hle : ∀ v ≤ val, (Nat.toDigits 10 v).length ≤ 3 * (k + 1) := fun v hv => length_toDigits_le (by omega) (by omega)
  cases text with
  | some text =>
    have hlen := hle val (Nat.le_refl val)
    rw [getD_some] at hroom ⊢
    rw [printComponent, sprintf, if_neg (by rw [length_cons]; omega)]
    refine ⟨_, rfl, ?_⟩
    rw [length_append, length_cons]
    omega
  | none =>
    have hone : (Nat.toDigits 10 (if val < 80 then val / 40 else 2)).length ≤ 1 :=
      length_toDigits_le (by decide) (by split <;> omega)
    have htwo : (Nat.toDigits 10 (val - (if val < 80 then val / 40 else 2) * 40)).length + 2 ≤ 4 * (k + 1) := by
      cases k with
      | zero =>
        have := @length_toDigits_le 2 (val - (if val < 80 then val / 40 else 2) * 40) (by decide) (by split <;> omega)
        omega
      | succ k =>
        have := hle (val - (if val < 80 then val / 40 else 2) * 40) (Nat.sub_le _ _)
        omega
    rw [getD_none, length_nil] at hroom
    simp only [printComponent, sprintf, length_nil, List.nil_append]
    rw [if_neg (by omega), bind_some, if_neg (by rw [length_cons]; omega)]
    refine ⟨_, rfl, ?_⟩
    rw [length_append, length_cons]
    omega

theorem room_decode {k : ℕ} (hder : ∀ b ∈ der, b < 256) (hu : u < 128 ^ k) (hmax : u ≤ LBER_OID_COMPONENT_MAX >>> 7)
    (hroom : (text.getD []).length + 4 * (k + der.length) + 1 ≤ room) : decodeLoop room der (u * 128) text ≠ none := by
  induction der generalizing u text k with
  | nil => simp [decodeLoop]
  | cons octet der ih =>
    obtain ⟨hoctet, hder⟩ := List.forall_mem_cons.mp hder
    rw [length_cons] at hroom
    by_cases hlow : octet < 128
    · rw [decodeLoop_last hlow]
      obtain ⟨t, hprint, hlen⟩ := @room_print room (u * 128 + octet) text k (by rw [Nat.pow_succ]; omega) (by omega)
      rw [hprint, bind_some]
      have hih := @ih 0 (some t) 0 hder (by decide) (Nat.zero_le _) (by rw [getD_some]; omega)
      rwa [Nat.zero_mul] at hih
    · rw [decodeLoop_more hmax (Nat.le_of_not_lt hlow) hoctet]
      split
      · next hc => exact @ih _ _ (k + 1) hder (by rw [Nat.pow_succ]; omega) hc.2 (by omega)
      · simp

theorem decodeOid_ne_none (hder : ∀ b ∈ der, b < 256) : decodeOid der room ≠ none := by
  rw [decodeOid]
  split
  · simp
  · have h := @room_decode room 0 der none 0 hder (by decide) (Nat.zero_le _) (by simp; omega)
    rwa [Nat.zero_mul] at h

end

/-- `x.y`, and the numbers behind it. -/
def oidText (x y : ℕ) (zs : List ℕ) : List Char := Nat.toDigits 10 x ++ component y ++ zs.flatMap component

def Arcs (x y : ℕ) : Prop := x ≤ 2 ∧ (x < 2 → y < 40) ∧ y ≤ LBER_OID_COMPONENT_MAX - 80

section

variable {x y room : ℕ} {zs der : List ℕ} {s after : List Char}

theorem shownAll_some (text : List Char) (vs : List ℕ) : shownAll (some text) vs = some (text ++ vs.flatMap component) := by
  induction vs generalizing text with
  | nil => simp [shownAll]
  | cons v vs ih => rw [shownAll, ih, shown, flatMap_cons, append_assoc]

theorem shown_none (h : Arcs x y) : shown none (y + x * 40) = Nat.toDigits 10 x ++ component y := by
  obtain ⟨hx, hy, -⟩ := h
  have hval : (if y + x * 40 < 80 then (y + x * 40) / 40 else 2) = x := by split <;> omega
  rw [shown, hval, Nat.add_sub_cancel]

theorem exists_arcs {v : ℕ} (hv : v ≤ LBER_OID_COMPONENT_MAX) : ∃ x y, Arcs x y ∧ v = y + x * 40 := by
  have hmax : LBER_OID_COMPONENT_MAX = 18446744073709551487 := rfl
  refine ⟨if v < 80 then v / 40 else 2, v - (if v < 80 then v / 40 else 2) * 40, ⟨?_, ?_, ?_⟩, ?_⟩ <;> split <;> omega

theorem encodeOid_text (h : Arcs x y) (hzs : ∀ z ∈ zs, z ≤ LBER_OID_COMPONENT_MAX) (hafter : atDigit after = false)
    (hroom : (oidText x y zs).length / 2 ≤ room) :
    encodeOid (oidText x y zs) after room = some (some (((y + x * 40) :: zs).flatMap base128)) := by
  obtain ⟨hx, hy, hmax⟩ := h
  have hne := encodeOid_ne_none (oidText x y zs) after room
  have hptr : oidText x y zs ++ after = Nat.toDigits 10 x ++ ('.' :: (Nat.toDigits 10 y ++ (zs.flatMap component ++ after))) := by
    simp [oidText, component]
  have hulong : LBER_OID_COMPONENT_MAX - 80 ≤ ULONG_MAX := by decide
  obtain ⟨hdigit, hfirst⟩ := @strtoul_toDigits ('.' :: (Nat.toDigits 10 y ++ (zs.flatMap component ++ after))) x
    (hx.trans (by decide)) rfl
  obtain ⟨hdigit', hsecond⟩ := @strtoul_toDigits (zs.flatMap component ++ after) y (hmax.trans hulong) (atDigit_components hafter)
  have hlimit : ¬ (if x < 2 then 39 else LBER_OID_COMPONENT_MAX - 80) < y := by split <;> omega
  rw [encodeOid, if_neg (Nat.not_lt.mpr hroom)] at hne ⊢
  simp only [hptr, hdigit, hfirst, Bool.true_eq_false, if_false, if_neg (Nat.not_lt.mpr hx), List.head?_cons, tail_cons,
    hdigit', and_self, if_true, hsecond, if_neg hlimit] at hne ⊢
  rw [encodeLoop_text hzs hafter hne, List.nil_append, flatMap_cons]

end

/-- The codec goes from text to octets and back, and from octets to text and back, and stays within its buffers. -/
theorem oid_codec :
    (∀ x y zs after room, Arcs x y → (∀ z ∈ zs, z ≤ LBER_OID_COMPONENT_MAX) → atDigit after = false →
      (oidText x y zs).length / 2 ≤ room → ∃ der, encodeOid (oidText x y zs) after room = some (some der) ∧
        ∀ room', 4 * der.length + 1 ≤ room' → decodeOid der room' = some (some (oidText x y zs))) ∧
    (∀ der s after room room', (∀ b ∈ der, b < 256) → decodeOid der room' = some (some s) → atDigit after = false →
      s.length / 2 ≤ room → encodeOid s after room = some (some der)) ∧
    (∀ s after room, encodeOid s after room ≠ none) ∧
    ∀ der room, (∀ b ∈ der, b < 256) → decodeOid der room ≠ none := by
  refine ⟨?_, ?_, encodeOid_ne_none, fun der room => decodeOid_ne_none⟩
  · intro x y zs after room harcs hzs hafter hroom
    have hval : y + x * 40 ≤ LBER_OID_COMPONENT_MAX := by
      obtain ⟨hx, -, hmax⟩ := harcs
      have hle : LBER_OID_COMPONENT_MAX - 80 + 80 = LBER_OID_COMPONENT_MAX := by decide
      omega
    refine ⟨_, encodeOid_text harcs hzs hafter hroom, fun room' hroom' => ?_⟩
    have hbytes : ∀ b ∈ ((y + x * 40) :: zs).flatMap base128, b < 256 := by
      intro b hb
      obtain ⟨v, -, hb⟩ := List.mem_flatMap.mp hb
      exact base128_lt v b hb
    have hne := @decodeOid_ne_none room' _ hbytes
    rw [decodeOid, if_neg (by omega)] at hne ⊢
    rw [decodeLoop_octets (List.forall_mem_cons.mpr ⟨hval, hzs⟩) hne, shownAll, shown_none harcs, shownAll_some]
    rfl
  · intro der s after room room' hder hdecode hafter hroom
    rw [decodeOid] at hdecode
    split at hdecode
    · cases hdecode
    · obtain ⟨vs, hvs, hle, hs⟩ := @decodeLoop_sound room' 0 der none s hder (Nat.zero_le _) hdecode
      rw [high_zero, List.nil_append] at hvs
      cases vs with
      | nil => cases hs
      | cons v zs =>
        obtain ⟨hv, hzs⟩ := List.forall_mem_cons.mp hle
        obtain ⟨x, y, harcs, rfl⟩ := exists_arcs hv
        rw [shownAll, shown_none harcs, shownAll_some] at hs
        obtain rfl : oidText x y zs = s := Option.some.inj hs
        rw [hvs]
        exact encodeOid_text harcs hzs hafter hroom

/-- The largest component is too large behind `2.`. -/
theorem encodeOid_refuses : oidText 2 18446744073709551487 [] = "2.18446744073709551487".toList ∧
    18446744073709551487 ≤ LBER_OID_COMPONENT_MAX ∧ encodeOid "2.18446744073709551487".toList [] 11 = some none := by
  refine ⟨by decide, by decide, by decide⟩

end Libreldap
end ReOpenLDAP
