import ReOpenLDAP.Slapd.IntegerSyntax
import ReOpenLDAP.Slapd.Mods

/-!
# Slapd.Increment

`modify_increment_values` as it rewrites the values one after the other.
-/

namespace ReOpenLDAP
namespace Slapd

open Decimal List

def LONG_MAX : ℤ := 2 ^ 63 - 1

def LONG_MIN : ℤ := -2 ^ 63

def IsLong (n : ℤ) : Prop := LONG_MIN ≤ n ∧ n ≤ LONG_MAX

instance (n : ℤ) : Decidable (IsLong n) := inferInstanceAs (Decidable (LONG_MIN ≤ n ∧ n ≤ LONG_MAX))

def isspace (c : Char) : Bool := c = ' ' ∨ 9 ≤ c.toNat ∧ c.toNat ≤ 13

/-- `lutil_atol`: `strtol` in base 10 up to the end of the string. It is not called on a space, so none is skipped. -/
def lutilAtol (s : List Char) : Option ℤ :=
  if s.head?.any isspace then none
  else
    let ds := if s.head? = some '-' ∨ s.head? = some '+' then s.tail else s
    let digits := ds.takeWhile Char.isDigit
    let next := ds.dropWhile Char.isDigit
    if digits = [] ∨ ¬ (next = [] ∨ next.head? = some '\x00') then none
    else
      let l : ℤ := if s.head? = some '-' then -(number digits : ℤ) else number digits
      -- beyond that `strtol` sets `errno`
      if IsLong l then some l else none

/-- `%ld` -/
def longText (n : ℤ) : List Char := if n < 0 then '-' :: Nat.toDigits 10 n.natAbs else Nat.toDigits 10 n.natAbs

/-- The loop over the values: the result, none for success, and what the values are then. A sum that is no `long` is undefined. -/
def incrementLoop (incr : ℤ) : List (List Char) → Option (Option ModRc × List (List Char))
  | [] => some (none, [])
  | v :: vs =>
    match lutilAtol v with
    | none => some (some .invalidSyntax, v :: vs)
    | some value =>
      if IsLong (value + incr) then (incrementLoop incr vs).map fun r => (r.1, longText (value + incr) :: r.2)
      else none

variable {δ : Type}

/-- `modify_increment_values` on the attribute that it finds, for the increment `value`. -/
def incrementAttr (sch : ModSchema δ (List Char)) (a : Attr δ (List Char)) (value : List Char) :
    Option (Option ModRc × Attr δ (List Char)) :=
  if sch.integer a.desc then
    match lutilAtol value with
    | none => some (some .invalidSyntax, a)
    | some incr =>
      if incr = 0 then some (none, a)
      else
        (incrementLoop incr a.norms).map fun r =>
          (r.1, if a.nvals = none then { a with vals := r.2 } else { a with nvals := some r.2 })
  else some (some .constraintViolation, a)

/-- Each value becomes the text of its sum with the increment, or there is an error and the attribute stays. -/
def Exact (a : Attr δ (List Char)) (value : List Char) : Option (Option ModRc × Attr δ (List Char)) → Prop
  | some (none, a') => a' = { a with vals := a.vals.map fun v => longText (integerValue v + integerValue value) }
  | some (some _, a') => a' = a
  | none => False

section

variable {s v value : List Char} {vs : List (List Char)} {incr : ℤ}

theorem isspace_of_isDigit {c : Char} (h : c.isDigit = true) : isspace c = false := by
  have hc := isDigit_iff.mp h
  have hne : c ≠ ' ' := by
    rintro rfl
    cases h
  simp only [isspace, hne, false_or, decide_eq_false_iff_not]
  omega

theorem lutilAtol_valid (h : integerValidate s = true) : lutilAtol s = if IsLong (integerValue s) then some (integerValue s) else none := by
  rcases validate_cases h with h | ⟨ds, rfl, h, -⟩
  · obtain ⟨c, ds, rfl⟩ := exists_cons_of_ne_nil h.ne_nil
    have hc : c.isDigit = true := h.digits c mem_cons_self
    have hminus : c ≠ '-' := by
      rintro rfl
      cases hc
    have hplus : c ≠ '+' := by
      rintro rfl
      cases hc
    obtain ⟨htake, hdrop⟩ := span_digits h.digits
    simp [lutilAtol, isspace_of_isDigit hc, hminus, hplus, htake, hdrop, h.integerValue_eq]
  · obtain ⟨htake, hdrop⟩ := span_digits h.digits
    have hspace : isspace '-' = false := by decide
    simp [lutilAtol, hspace, htake, hdrop, h.ne_nil, integerValue]

theorem canonical_toDigits (n : ℕ) : Canonical (Nat.toDigits 10 n) := by
  refine ⟨digits_toDigits n, Nat.toDigits_ne_nil, ?_⟩
  rcases Nat.eq_zero_or_pos n with rfl | hn
  · exact .inl rfl
  · exact .inr (toDigits_head hn)

theorem Canonical.toDigits {ds : List Char} (h : Canonical ds) : Nat.toDigits 10 (number ds) = ds := by
  have hcmp := h.cmp_eq (canonical_toDigits (number ds))
  rw [number_toDigits, cmp_self_eq_eq, eq_comm, Ordering.then_eq_eq] at hcmp
  exact ((Cmp.cmp_eq_iff _ _).mp hcmp.2).symm

theorem Canonical.validate {ds : List Char} (h : Canonical ds) :
    integerValidate ds = true ∧ (ds.head? ≠ some '0' → integerValidate ('-' :: ds) = true) := by
  have hall : ds.all Char.isDigit = true := List.all_eq_true.mpr h.digits
  refine ⟨?_, fun h0 => ?_⟩
  · unfold integerValidate
    split
    · exact absurd rfl h.ne_nil
    · exact absurd rfl h.head?_ne_minus
    · rcases h.no_zero with heq | hne
      · exact decide_eq_true (List.cons.inj heq).2
      · exact absurd rfl hne
    · exact hall
  · rw [integerValidate, if_neg h.ne_nil, if_neg h0]
    exact hall

theorem longText_spec (n : ℤ) : integerValidate (longText n) = true ∧ integerValue (longText n) = n := by
  have h := canonical_toDigits n.natAbs
  unfold longText
  split_ifs with hn
  · refine ⟨h.validate.2 (toDigits_head (by omega)), ?_⟩
    rw [integerValue, number_toDigits]
    omega
  · refine ⟨h.validate.1, ?_⟩
    rw [h.integerValue_eq, number_toDigits]
    omega

theorem longText_inj {m n : ℤ} (h : longText m = longText n) : m = n := by
  rw [← (longText_spec m).2, h, (longText_spec n).2]

theorem lutilAtol_longText {n : ℤ} (h : IsLong n) : lutilAtol (longText n) = some n := by
  obtain ⟨hvalid, hvalue⟩ := longText_spec n
  rw [lutilAtol_valid hvalid, hvalue, if_pos h]

theorem longText_integerValue (h : integerValidate s = true) : longText (integerValue s) = s := by
  rcases validate_cases h with h | ⟨ds, rfl, h, h0⟩
  · rw [longText, h.integerValue_eq, if_neg (by omega), Int.natAbs_natCast, h.toDigits]
  · have hpos := number_pos h.digits h.ne_nil h0
    rw [longText, integerValue, if_pos (by omega), Int.natAbs_neg, Int.natAbs_natCast, h.toDigits]

/-! ## The loop -/

theorem incrementLoop_fits (h : ∀ v ∈ vs, integerValidate v = true ∧ IsLong (integerValue v) ∧ IsLong (integerValue v + incr)) :
    incrementLoop incr vs = some (none, vs.map fun v => longText (integerValue v + incr)) := by
  induction vs with
  | nil => rfl
  | cons v vs ih =>
    obtain ⟨⟨hvalid, hv, hsum⟩, hvs⟩ := List.forall_mem_cons.mp h
    rw [incrementLoop, lutilAtol_valid hvalid, if_pos hv]
    dsimp only
    rw [if_pos hsum, ih hvs]
    rfl

theorem incrementLoop_success {vs' : List (List Char)} (hvalid : ∀ v ∈ vs, integerValidate v = true)
    (h : incrementLoop incr vs = some (none, vs')) : ∀ v ∈ vs, IsLong (integerValue v) ∧ IsLong (integerValue v + incr) := by
  induction vs generalizing vs' with
  | nil => exact forall_mem_nil _
  | cons v vs ih =>
    obtain ⟨hv, hvs⟩ := List.forall_mem_cons.mp hvalid
    rw [incrementLoop, lutilAtol_valid hv] at h
    split_ifs at h with hlong
    · dsimp only at h
      split_ifs at h with hsum
      obtain ⟨⟨rc, rest⟩, hrest, heq⟩ := Option.map_eq_some_iff.mp h
      obtain ⟨rfl, -⟩ := Prod.mk.inj heq
      exact List.forall_mem_cons.mpr ⟨⟨hlong, hsum⟩, ih hvs hrest⟩
    · cases h

theorem incrementLoop_head {rc : Option ModRc} {vs' : List (List Char)} (hincr : incr ≠ 0)
    (h : incrementLoop incr (v :: vs) = some (rc, vs')) (hv : lutilAtol v ≠ none) : vs' ≠ v :: vs := by
  rw [incrementLoop] at h
  cases hlong : lutilAtol v with
  | none => exact absurd hlong hv
  | some value =>
    rw [hlong] at h
    dsimp only at h
    split_ifs at h with hsum
    obtain ⟨r, -, heq⟩ := Option.map_eq_some_iff.mp h
    obtain ⟨-, rfl⟩ := Prod.mk.inj heq
    intro hsame
    have htext := lutilAtol_longText hsum
    rw [(List.cons.inj hsame).1, hlong] at htext
    have := Option.some.inj htext
    omega

/-- All values and sums are `long`, unless nothing is to be done or the first value ends it; and the values are what is compared. -/
theorem increment_exact_iff {sch : ModSchema δ (List Char)} {a : Attr δ (List Char)} (hint : sch.integer a.desc = true)
    (hvalue : integerValidate value = true) (hvals : ∀ v ∈ a.vals, integerValidate v = true)
    (hlen : ∀ ns, a.nvals = some ns → ns.length = a.vals.length) :
    Exact a value (incrementAttr sch a value) ↔
      ¬ IsLong (integerValue value) ∨ integerValue value = 0 ∨ (∀ v, a.norms.head? = some v → lutilAtol v = none) ∨
        a.nvals = none ∧ ∀ v ∈ a.vals, IsLong (integerValue v) ∧ IsLong (integerValue v + integerValue value) := by
  rw [incrementAttr, if_pos hint, lutilAtol_valid hvalue]
  by_cases hlong : IsLong (integerValue value)
  swap
  · rw [if_neg hlong]
    exact iff_of_true rfl (.inl hlong)
  rw [if_pos hlong]
  dsimp only
  by_cases hzero : integerValue value = 0
  · rw [if_pos hzero]
    refine iff_of_true ?_ (.inr (.inl hzero))
    have hsame : (a.vals.map fun v => longText (integerValue v + integerValue value)) = a.vals := by
      calc _ = a.vals.map id := map_congr_left fun v hv => by rw [hzero, add_zero, longText_integerValue (hvals v hv), id]
        _ = a.vals := List.map_id _
    rw [Exact, hsame]
  rw [if_neg hzero, or_iff_right (not_not.mpr hlong), or_iff_right hzero]
  -- the first value that the loop comes to
  by_cases hhead : ∀ v, a.norms.head? = some v → lutilAtol v = none
  · refine iff_of_true ?_ (.inl hhead)
    have hstay : (if a.nvals = none then { a with vals := a.norms } else { a with nvals := some a.norms }) = a := by
      obtain ⟨desc, vals, nvals, ixadd, ixdel, bigMulti⟩ := a
      cases nvals <;> rfl
    cases hnorms : a.norms with
    | nil =>
      have hvals : a.vals = [] := by
        cases hn : a.nvals with
        | none => exact (show a.norms = a.vals by rw [Attr.norms, hn]; rfl).symm.trans hnorms
        | some ns =>
          have hns : a.norms = ns := by rw [Attr.norms, hn]; rfl
          exact List.length_eq_zero_iff.mp (by rw [← hlen ns hn, ← hns, hnorms]; rfl)
      rw [hnorms] at hstay
      rw [incrementLoop, Option.map_some, hstay, Exact, hvals, map_nil, ← hvals]
    | cons v vs =>
      have hv : lutilAtol v = none := hhead v (by rw [hnorms]; rfl)
      rw [hnorms] at hstay
      rw [incrementLoop, hv]
      exact hstay
  obtain ⟨v, hv, hlongv⟩ : ∃ v, a.norms.head? = some v ∧ lutilAtol v ≠ none := by
    push Not at hhead
    exact hhead
  obtain ⟨vs, hnorms⟩ := List.head?_eq_some_iff.mp hv
  rw [or_iff_right hhead]
  cases hn : a.nvals with
  | none =>
    have hsame : a.norms = a.vals := by rw [Attr.norms, hn]; rfl
    rw [hsame] at hnorms ⊢
    constructor
    · intro h
      cases hloop : incrementLoop (integerValue value) a.vals with
      | none =>
        rw [hloop] at h
        cases h
      | some r =>
        obtain ⟨rc, vs'⟩ := r
        rw [hloop] at h
        cases rc with
        | none => exact ⟨rfl, incrementLoop_success hvals hloop⟩
        | some rc =>
          rw [hnorms] at hloop
          have hvs' : vs' = a.vals := congrArg Attr.vals h
          exact absurd (hvs'.trans hnorms) (incrementLoop_head hzero hloop hlongv)
    · rintro ⟨-, hall⟩
      rw [incrementLoop_fits fun v hv => ⟨hvals v hv, hall v hv⟩, Option.map_some, if_pos rfl, Exact, ← hn]
  | some ns =>
    -- `a_vals` stays as it is
    have hns : a.norms = ns := by rw [Attr.norms, hn]; rfl
    refine iff_of_false ?_ fun h => absurd h.1 (by simp)
    intro h
    cases hloop : incrementLoop (integerValue value) a.norms with
    | none =>
      rw [hloop] at h
      cases h
    | some r =>
      obtain ⟨rc, vs'⟩ := r
      rw [hloop] at h
      cases rc with
      | none =>
        have hmap : a.vals = a.vals.map fun v => longText (integerValue v + integerValue value) := congrArg Attr.vals h
        obtain ⟨w, ws, hws⟩ : ∃ w ws, a.vals = w :: ws := by
          refine exists_cons_of_length_pos ?_
          rw [← hlen ns hn, ← hns, hnorms]
          exact Nat.succ_pos _
        rw [hws] at hmap
        have hw := (List.cons.inj hmap).1
        have hwtext := longText_integerValue (hvals w (by rw [hws]; exact mem_cons_self))
        have := longText_inj (hwtext.trans hw)
        omega
      | some rc =>
        rw [hnorms] at hloop
        have hvs' : some vs' = a.nvals := congrArg Attr.nvals h
        rw [hn, ← hns] at hvs'
        exact absurd ((Option.some.inj hvs').trans hnorms) (incrementLoop_head hzero hloop hlongv)

end

def numberSchema : ModSchema String (List Char) where
  equality := fun _ => none
  integer := fun d => d = "uidNumber"
  righteous := true
  atol := lutilAtol
  ltoa := longText

theorem increment_exact_iff_two : Exact (attrNew "uidNumber" ["7".toList, "-3".toList] none) "5".toList
      (incrementAttr numberSchema (attrNew "uidNumber" ["7".toList, "-3".toList] none) "5".toList) ↔
    ¬ IsLong (integerValue "5".toList) ∨ integerValue "5".toList = 0 ∨
      (∀ v, (attrNew "uidNumber" ["7".toList, "-3".toList] none).norms.head? = some v → lutilAtol v = none) ∨
      (attrNew "uidNumber" ["7".toList, "-3".toList] none).nvals = none ∧
        ∀ v ∈ (attrNew "uidNumber" ["7".toList, "-3".toList] none).vals,
          IsLong (integerValue v) ∧ IsLong (integerValue v + integerValue "5".toList) :=
  increment_exact_iff (by decide) (by decide) (by decide) (by rintro ns h; cases h)

/-- The second value is no `long`, and the first one is rewritten. -/
theorem increment_rewrites : incrementAttr numberSchema (attrNew "uidNumber" ["1".toList, "9223372036854775808".toList] none) "1".toList =
      some (some .invalidSyntax, attrNew "uidNumber" ["2".toList, "9223372036854775808".toList] none) ∧
    ¬ Exact (attrNew "uidNumber" ["1".toList, "9223372036854775808".toList] none) "1".toList
      (incrementAttr numberSchema (attrNew "uidNumber" ["1".toList, "9223372036854775808".toList] none) "1".toList) := by
  have hrun : incrementAttr numberSchema (attrNew "uidNumber" ["1".toList, "9223372036854775808".toList] none) "1".toList =
      some (some .invalidSyntax, attrNew "uidNumber" ["2".toList, "9223372036854775808".toList] none) := by decide +kernel
  refine ⟨hrun, ?_⟩
  rw [hrun]
  intro h
  have hvals := congrArg Attr.vals h
  revert hvals
  decide

end Slapd
end ReOpenLDAP
