import ReOpenLDAP.Slapd.SortedValues

/-!
# Slapd.AvaFilter

`test_ava_filter`, with the values of an attribute sorted or not.

Without `LDAP_COMP_MATCH`.
-/

namespace ReOpenLDAP
namespace Slapd
namespace AvaFilter

open AttrVals List Option

inductive FilterType where
  | equality
  | approx
  | ge
  | le
deriving DecidableEq

/-- `smr_match` of a rule that has one: an error, or how a value compares with the asserted one. -/
abbrev Match := List Char → List Char → Except ℤ Ordering

structure MatchingRule where
  smr_match : Option Match

/-- The rules of an attribute type. The equality rule is an order of the values. -/
structure Rules where
  sat_equality : Option (List Char → List Char → Ordering)
  sat_approx : Option MatchingRule
  sat_ordering : Option MatchingRule
  /-- `SLAP_AT_ORDERED` -/
  ordered : Bool

/-- `Attribute`: its normalized values, and `SLAP_ATTR_SORTED_VALS`. -/
structure Attribute (δ : Type*) where
  desc : δ
  nvals : List (List Char)
  sorted : Bool

structure AttributeAssertion (δ : Type*) where
  desc : δ
  value : List Char

structure Op (δ : Type*) where
  /-- `access_allowed` for the asserted value. -/
  accessAllowed : δ → Bool
  /-- `is_ad_subtype` -/
  isSubtype : δ → δ → Bool
  rules : δ → Rules
  siAdHasSubordinates : δ
  siAdEntryDN : δ
  /-- The result of `be_has_subordinates`, if the backend has it, and `hasSubordinates`. -/
  beHasSubordinates : Option (ℤ × ℤ)
  /-- The match of the entry's name and the asserted one. -/
  entryDNMatch : Match
  entryNname : List Char

def LDAP_SUCCESS : ℤ := 0

def LDAP_COMPARE_FALSE : ℤ := 5

def LDAP_COMPARE_TRUE : ℤ := 6

def LDAP_NO_SUCH_ATTRIBUTE : ℤ := 16

def LDAP_INAPPROPRIATE_MATCHING : ℤ := 18

def LDAP_INVALID_SYNTAX : ℤ := 21

def LDAP_INSUFFICIENT_ACCESS : ℤ := 50

def LDAP_OTHER : ℤ := 80

inductive Answer where
  | compareTrue
  | compareFalse
  | other (rc : ℤ)
deriving DecidableEq

/-- `ber_bvcmp`, and `octetStringMatch`: by the length first. -/
def berBvcmp : List Char → List Char → Ordering := compareLex (compareOn List.length) octetStringOrderingMatch

instance : Std.TransCmp berBvcmp := inferInstanceAs (Std.TransCmp (compareLex _ _))

def valueMatch (mr : MatchingRule) : Match :=
  match mr.smr_match with
  | none => fun _ _ => .error LDAP_INAPPROPRIATE_MATCHING
  | some f => f

def skipIndex (v : List Char) : List Char := ((numericIndex v).map Prod.snd).getD v

/-- `ordered_value_match`; the usage that compares the numbers is not asked for. -/
def orderedValueMatch (ordered : Bool) (mr : MatchingRule) (v1 v2 : List Char) : Except ℤ Ordering :=
  let v1 := if ordered then skipIndex v1 else v1
  let v2 := if ordered then skipIndex v2 else v2
  match mr.smr_match with
  | none => .ok (berBvcmp v1 v2)
  | some f => f v1 v2

def holds : FilterType → Ordering → Bool
  | .equality, m => m = .eq
  | .approx, m => m = .eq
  | .ge, m => m ≠ .lt
  | .le, m => m ≠ .gt

/-- What becomes of the loop over the attributes: it ends, or it goes on, maybe with another `rc`. -/
inductive Out where
  | ret (r : Answer)
  | cont (rc : Option Answer)
deriving DecidableEq

def equalityRule (eq : List Char → List Char → Ordering) : MatchingRule := ⟨some fun v a => .ok (eq v a)⟩

def ruleFor (rules : Rules) : FilterType → Option MatchingRule
  | .approx => rules.sat_approx.or (rules.sat_equality.map equalityRule)
  | .equality => rules.sat_equality.map equalityRule
  | .ge => rules.sat_ordering
  | .le => rules.sat_ordering

def scan (type : FilterType) (f : List Char → Except ℤ Ordering) : List (List Char) → Out
  | [] => .cont none
  | v :: vs =>
    match f v with
    | .error e => .cont (some (.other e))
    | .ok m => if holds type m then .ret .compareTrue else scan type f vs

/-- The first value for `LDAP_FILTER_LE`, the last one for `LDAP_FILTER_GE`. -/
def endValue (type : FilterType) (nvals : List (List Char)) : Option (List Char) :=
  if type = .le then nvals.head? else nvals.getLast?

def endOut (type : FilterType) : Except ℤ Ordering → Out
  | .error e => .ret (.other e)
  | .ok m => if holds type m then .ret .compareTrue else .cont none

/-- `attr_valfind` for a value that is normalized, in sorted values. -/
def valfind (rules : Rules) (nvals : List (List Char)) (value : List Char) : Option Valfind :=
  rules.sat_equality.bind fun eq =>
    AttrVals.attrValfind ⟨none, eq, rules.ordered, false, true⟩ ⟨nvals.length, nvals, none, true⟩ true value

variable {δ : Type*} [DecidableEq δ] (op : Op δ) (ava : AttributeAssertion δ) (type : FilterType)

/-- One attribute; none if a value is read outside of `a_nvals`. -/
def attrTest (a : Attribute δ) : Option Out :=
  let rules := op.rules a.desc
  if ava.desc ≠ a.desc ∧ op.accessAllowed a.desc = false then some (.cont (some (.other LDAP_INSUFFICIENT_ACCESS)))
  else
    match ruleFor rules type with
    | none => some (.cont (some (.other LDAP_INAPPROPRIATE_MATCHING)))
    | some mr =>
      if a.sorted = true ∧ type ≠ .approx then
        if type = .ge ∨ type = .le then
          (endValue type a.nvals).map fun v => endOut type (valueMatch mr v ava.value)
        else
          match valfind rules a.nvals ava.value with
          | none => none
          | some (.found _) => some (.ret .compareTrue)
          | some (.missing _) => some (.cont none)
          | some .invalidSyntax => some (.ret (.other LDAP_INVALID_SYNTAX))
      else some (scan type (fun v => orderedValueMatch rules.ordered mr v ava.value) a.nvals)

def attrLoop (rc : Answer) : List (Attribute δ) → Option Answer
  | [] => some rc
  | a :: attrs =>
    match attrTest op ava type a with
    | none => none
    | some (.ret r) => some r
    | some (.cont rc') => attrLoop (rc'.getD rc) attrs

def testAvaFilter (attrs : List (Attribute δ)) : Option Answer :=
  if op.accessAllowed ava.desc = false then some (.other LDAP_INSUFFICIENT_ACCESS)
  else if ava.desc = op.siAdHasSubordinates ∧ op.beHasSubordinates.isSome = true then
    if type = .ge ∨ type = .le then some (.other LDAP_INAPPROPRIATE_MATCHING)
    else
      match op.beHasSubordinates with
      | none => none
      | some (rc, has) =>
        if rc ≠ LDAP_SUCCESS then some (.other LDAP_OTHER)
        else if has = LDAP_COMPARE_TRUE then some (if ava.value = "TRUE".toList then .compareTrue else .compareFalse)
        else if has = LDAP_COMPARE_FALSE then some (if ava.value = "FALSE".toList then .compareTrue else .compareFalse)
        else some (.other LDAP_OTHER)
  else if ava.desc = op.siAdEntryDN then
    if type = .ge ∨ type = .le then some (.other LDAP_INAPPROPRIATE_MATCHING)
    else
      match op.entryDNMatch op.entryNname ava.value with
      | .error e => some (.other e)
      | .ok m => some (if m = .eq then .compareTrue else .compareFalse)
  else attrLoop op ava type .compareFalse (attrs.filter fun a => op.isSubtype a.desc ava.desc)

/-! ## The value at the end -/

def verdict (type : FilterType) : Except ℤ Ordering → Option Bool
  | .error _ => none
  | .ok m => some (holds type m)

/-- The first value that is not a miss has the verdict of the value at the end. -/
def EndDecides (type : FilterType) (f : List Char → Except ℤ Ordering) (nvals : List (List Char)) : Prop :=
  ∃ last, endValue type nvals = some last ∧
    ∀ v, nvals.find? (fun v => verdict type (f v) ≠ some false) = some v → verdict type (f v) = verdict type (f last)

/-- The values are in the order of their equality rule, which `sortvals` does not take for `X-ORDERED` types. -/
structure SortedBy (rules : Rules) (nvals : List (List Char)) : Prop where
  increasing : ∀ eq ∈ rules.sat_equality, nvals.Pairwise fun v w => eq v w = .lt
  plain : rules.ordered = false

theorem scan_spec (type : FilterType) (f : List Char → Except ℤ Ordering) (nvals : List (List Char)) : scan type f nvals =
    match nvals.find? fun v => verdict type (f v) ≠ some false with
    | none => .cont none
    | some v =>
      match f v with
      | .error e => .cont (some (.other e))
      | .ok _ => .ret .compareTrue := by
  induction nvals with
  | nil => rfl
  | cons v vs ih =>
    rw [scan, List.find?_cons]
    cases hv : f v with
    | error e => simp [verdict, hv]
    | ok m =>
      cases hm : holds type m with
      | true => simp [verdict, hm, hv]
      | false => simpa [verdict, hm] using ih

def Attribute.cleared {δ : Type*} (a : Attribute δ) : Attribute δ := { a with sorted := false }

section

variable {rules : Rules} {nvals : List (List Char)} {value : List Char} {type : FilterType}

theorem valfind_spec {eq : List Char → List Char → Ordering} [Std.TransCmp eq] (heq : rules.sat_equality = some eq)
    (hsorted : SortedBy rules nvals) (value : List Char) :
    (∃ i, valfind rules nvals value = some (.found i) ∧ ∃ v ∈ nvals, eq v value = .eq) ∨
    (∃ i, valfind rules nvals value = some (.missing i) ∧ ∀ v ∈ nvals, eq v value ≠ .eq) := by
  let t : AttrType := ⟨none, eq, rules.ordered, false, true⟩
  let a : Values := ⟨nvals.length, nvals, none, true⟩
  have : Std.TransCmp t.smr_match := inferInstanceAs (Std.TransCmp eq)
  have hvalfind : valfind rules nvals value = AttrVals.attrValfind t a true value := by
    rw [valfind, heq]
    rfl
  have hincreasing : Increasing t nvals := hsorted.increasing eq heq
  have hmatch : AttrVals.valueMatch t a value = fun s => eq s value := funext fun s => if_pos rfl
  obtain ⟨r, hr, hfinds⟩ := @attrValfind_finds t a true value value rfl (fun _ => hmatch ▸ hincreasing.probes value) rfl
  rw [hvalfind, hr]
  cases r with
  | found i =>
    left
    obtain ⟨hlt, hmem, -⟩ := List.findIdx?_eq_some_iff_getElem.mp hfinds
    rw [hmatch, decide_eq_true_eq] at hmem
    exact ⟨i, rfl, _, getElem_mem _, hmem⟩
  | missing i =>
    right
    have hnone := List.findIdx?_eq_none_iff.mp hfinds.1
    rw [hmatch] at hnone
    exact ⟨i, rfl, fun v hv => of_decide_eq_false (hnone v hv)⟩
  | invalidSyntax => exact absurd hfinds id

theorem scan_equality (eq : List Char → List Char → Ordering) (value : List Char) (nvals : List (List Char)) :
    ((∃ v ∈ nvals, eq v value = .eq) → scan .equality (fun v => .ok (eq v value)) nvals = .ret .compareTrue) ∧
    ((∀ v ∈ nvals, eq v value ≠ .eq) → scan .equality (fun v => .ok (eq v value)) nvals = .cont none) := by
  induction nvals with
  | nil => exact ⟨fun ⟨v, hv, _⟩ => absurd hv not_mem_nil, fun _ => rfl⟩
  | cons v vs ih =>
    rw [scan]
    by_cases hv : eq v value = .eq
    · simp [holds, hv]
    · simp only [holds, hv, decide_false, Bool.false_eq_true, if_false, exists_mem_cons_iff, forall_mem_cons, false_or,
        ne_eq, not_false_iff, true_and]
      exact ih

theorem endValue_mem {last : List Char} (h : endValue type nvals = some last) : last ∈ nvals := by
  unfold endValue at h
  split at h
  · exact List.mem_of_mem_head? h
  · exact List.mem_of_getLast? h

end

section

variable {op : Op δ} {ava : AttributeAssertion δ} {type : FilterType} {a : Attribute δ}

structure Sorted (op : Op δ) (a : Attribute δ) : Prop where
  trans : ∀ eq ∈ (op.rules a.desc).sat_equality, Std.TransCmp eq
  by_rule : a.sorted = true → SortedBy (op.rules a.desc) a.nvals

theorem attrTest_equality (h : Sorted op a) (htype : ¬ (type = .ge ∨ type = .le)) :
    attrTest op ava type a = attrTest op ava type a.cleared := by
  by_cases hsorted : a.sorted = true
  case neg => rw [Attribute.cleared, ← Bool.eq_false_of_not_eq_true hsorted]
  by_cases happrox : type = .approx
  case pos =>
    subst happrox
    simp [attrTest, Attribute.cleared]
  obtain rfl : type = .equality := by cases type <;> simp_all
  have hby := h.by_rule hsorted
  unfold attrTest Attribute.cleared
  simp only
  split
  · rfl
  · cases heq : (op.rules a.desc).sat_equality with
    | none => simp [ruleFor, heq]
    | some eq =>
      have := h.trans eq heq
      obtain ⟨hfound, hmissing⟩ := scan_equality eq ava.value a.nvals
      simp only [ruleFor, heq, map_some, hsorted, ne_eq, reduceCtorEq, not_false_iff, and_self, if_true, if_false,
        Bool.false_eq_true, false_and, orderedValueMatch, equalityRule, hby.plain]
      rcases valfind_spec heq hby ava.value with ⟨i, hi, hex⟩ | ⟨i, hi, hall⟩
      · rw [hi, hfound hex]
      · rw [hi, hmissing hall]

def Tested (op : Op δ) (ava : AttributeAssertion δ) (a : Attribute δ) : Prop :=
  ¬ (ava.desc ≠ a.desc ∧ op.accessAllowed a.desc = false)

theorem attrTest_end {mr : MatchingRule} {g : Match} (htest : Tested op ava a) (htype : type = .ge ∨ type = .le)
    (hmr : (op.rules a.desc).sat_ordering = some mr) (hg : mr.smr_match = some g) (hsorted : a.sorted = true)
    (hplain : (op.rules a.desc).ordered = false) :
    attrTest op ava type a = ((endValue type a.nvals).map fun v => endOut type (g v ava.value)) ∧
    attrTest op ava type a.cleared = some (scan type (fun v => g v ava.value) a.nvals) := by
  have hrule : ruleFor (op.rules a.desc) type = some mr := by rcases htype with rfl | rfl <;> exact hmr
  have happrox : type ≠ .approx := by rcases htype with rfl | rfl <;> decide
  unfold attrTest Attribute.cleared
  simp only
  rw [if_neg htest, if_neg htest, hrule]
  simp only [if_pos (And.intro hsorted happrox), if_pos htype, hplain, valueMatch, orderedValueMatch, hg, Bool.false_eq_true,
    false_and, if_false]
  exact ⟨trivial, trivial⟩

theorem scan_verdict {f : List Char → Except ℤ Ordering} {nvals : List (List Char)} {last : List Char} (hlast : last ∈ nvals)
    (h : ∀ v, nvals.find? (fun v => verdict type (f v) ≠ some false) = some v → verdict type (f v) = verdict type (f last)) :
    (∀ b, verdict type (f last) = some b → scan type f nvals = if b then .ret .compareTrue else .cont none) ∧
    (verdict type (f last) = none → ∃ e, scan type f nvals = .cont (some (.other e))) := by
  rw [scan_spec]
  cases hfind : nvals.find? fun v => verdict type (f v) ≠ some false with
  | none =>
    have hmiss : verdict type (f last) = some false := by simpa using List.find?_eq_none.mp hfind last hlast
    rw [hmiss]
    exact ⟨fun b hb => Option.some.inj hb ▸ rfl, (by nofun)⟩
  | some v =>
    have hsame := h v hfind
    have hhit := List.find?_some hfind
    rw [← hsame]
    cases hv : f v with
    | error e =>
      simp only [hv]
      exact ⟨(by nofun), fun _ => ⟨e, rfl⟩⟩
    | ok m =>
      have hm : holds type m = true := by simpa [verdict, hv] using hhit
      simp only [hv]
      refine ⟨fun b hb => ?_, (by nofun)⟩
      rw [verdict, hm] at hb
      cases hb
      rfl

structure Decided (type : FilterType) (mr : MatchingRule) (nvals : List (List Char)) (value : List Char) : Prop where
  ends : ∃ g, mr.smr_match = some g ∧ EndDecides type (fun v => g v value) nvals
  ok : ∀ g ∈ mr.smr_match, ∀ last ∈ endValue type nvals, verdict type (g last value) ≠ none

theorem attrTest_decided {mr : MatchingRule} (htest : Tested op ava a) (htype : type = .ge ∨ type = .le)
    (hmr : (op.rules a.desc).sat_ordering = some mr) (hsorted : a.sorted = true) (hplain : (op.rules a.desc).ordered = false)
    (h : Decided type mr a.nvals ava.value) : attrTest op ava type a = attrTest op ava type a.cleared := by
  obtain ⟨g, hg, last, hlast, hends⟩ := h.ends
  obtain ⟨hend, hscan⟩ := attrTest_end htest htype hmr hg hsorted hplain
  have hok := h.ok g hg last hlast
  rw [hend, hscan, hlast, map_some]
  cases hv : g last ava.value with
  | error e => exact absurd (by rw [hv]; rfl) hok
  | ok m =>
    rw [(scan_verdict (f := fun v => g v ava.value) (endValue_mem hlast) hends).1 (holds type m) (by simp only [hv]; rfl)]
    rfl

end

def Same (r r' : Option Answer) : Prop :=
  ∃ x y, r = some x ∧ r' = some y ∧ (x = .compareTrue ↔ y = .compareTrue) ∧ (x = .compareFalse ↔ y = .compareFalse)

theorem Same.refl {r : Option Answer} (h : r ≠ none) : Same r r := by
  obtain ⟨x, rfl⟩ := Option.ne_none_iff_exists'.mp h
  exact ⟨x, x, rfl, rfl, Iff.rfl, Iff.rfl⟩

section

variable {op : Op δ} {ava : AttributeAssertion δ} {type : FilterType}

theorem attrLoop_congr {attrs attrs' : List (Attribute δ)}
    (h : List.Forall₂ (fun a a' => attrTest op ava type a = attrTest op ava type a') attrs attrs') (rc : Answer) :
    attrLoop op ava type rc attrs = attrLoop op ava type rc attrs' := by
  induction h generalizing rc with
  | nil => rfl
  | cons ha _ ih =>
    rw [attrLoop, attrLoop, ha]
    split
    · rfl
    · rfl
    · exact ih _

omit [DecidableEq δ] in
theorem filter_cleared (p : δ → Bool) (attrs : List (Attribute δ)) :
    (attrs.map Attribute.cleared).filter (fun a => p a.desc) = (attrs.filter fun a => p a.desc).map Attribute.cleared := by
  rw [List.filter_map]
  rfl

def Reached (op : Op δ) (ava : AttributeAssertion δ) : Prop :=
  op.accessAllowed ava.desc = true ∧ ¬ (ava.desc = op.siAdHasSubordinates ∧ op.beHasSubordinates.isSome = true) ∧
    ava.desc ≠ op.siAdEntryDN

theorem testAvaFilter_reached (h : Reached op ava) (attrs : List (Attribute δ)) : testAvaFilter op ava type attrs =
    attrLoop op ava type .compareFalse (attrs.filter fun a => op.isSubtype a.desc ava.desc) := by
  rw [testAvaFilter, if_neg (by simp [h.1]), if_neg h.2.1, if_neg h.2.2]

theorem testAvaFilter_other (h : ¬ Reached op ava) (attrs attrs' : List (Attribute δ)) :
    testAvaFilter op ava type attrs = testAvaFilter op ava type attrs' ∧ testAvaFilter op ava type attrs ≠ none := by
  unfold testAvaFilter
  by_cases haccess : op.accessAllowed ava.desc = false
  · simp [haccess]
  by_cases hsub : ava.desc = op.siAdHasSubordinates ∧ op.beHasSubordinates.isSome = true
  · obtain ⟨⟨rc, has⟩, hbe⟩ := Option.isSome_iff_exists.mp hsub.2
    rw [if_neg haccess, if_neg haccess, if_pos hsub, if_pos hsub, hbe]
    refine ⟨rfl, ?_⟩
    simp only
    split_ifs <;> simp
  by_cases hdn : ava.desc = op.siAdEntryDN
  · rw [if_neg haccess, if_neg haccess, if_neg hsub, if_neg hsub, if_pos hdn, if_pos hdn]
    refine ⟨rfl, ?_⟩
    split
    · simp
    · split <;> simp
  · exact absurd ⟨by simpa using haccess, hsub, hdn⟩ h

def OrderDecided (op : Op δ) (ava : AttributeAssertion δ) (type : FilterType) (a : Attribute δ) : Prop :=
  a.sorted = true → type = .ge ∨ type = .le → Tested op ava a → ∀ mr ∈ (op.rules a.desc).sat_ordering,
    Decided type mr a.nvals ava.value

theorem attrTest_cleared {a : Attribute δ} (h : Sorted op a) (hdecided : OrderDecided op ava type a) :
    attrTest op ava type a = attrTest op ava type a.cleared := by
  by_cases htype : type = .ge ∨ type = .le
  case neg => exact attrTest_equality h htype
  by_cases hsorted : a.sorted = true
  case neg => rw [Attribute.cleared, ← Bool.eq_false_of_not_eq_true hsorted]
  by_cases htest : Tested op ava a
  case neg =>
    rw [Tested, not_not] at htest
    unfold attrTest Attribute.cleared
    simp only
    rw [if_pos htest, if_pos htest]
  cases hmr : (op.rules a.desc).sat_ordering with
  | none =>
    have hrule : ruleFor (op.rules a.desc) type = none := by rcases htype with rfl | rfl <;> exact hmr
    unfold attrTest Attribute.cleared
    simp only
    rw [if_neg htest, if_neg htest, hrule]
  | some mr => exact attrTest_decided htest htype hmr hsorted (h.by_rule hsorted).plain (hdecided hsorted htype htest mr hmr)

def EndDecided (op : Op δ) (ava : AttributeAssertion δ) (type : FilterType) (a : Attribute δ) : Prop :=
  a.sorted = true → type = .ge ∨ type = .le → Tested op ava a → ∀ mr ∈ (op.rules a.desc).sat_ordering,
    ∃ g, mr.smr_match = some g ∧ EndDecides type (fun v => g v ava.value) a.nvals

def Out.answer : Out → Answer
  | .ret r => r
  | .cont rc => rc.getD .compareFalse

omit [DecidableEq δ] in
theorem endOut_answer (o : Except ℤ Ordering) :
    ((endOut type o).answer = .compareTrue ↔ verdict type o = some true) ∧
    ((endOut type o).answer = .compareFalse ↔ verdict type o = some false) := by
  cases o with
  | error e => simp [endOut, verdict, Out.answer]
  | ok m => cases hm : holds type m <;> simp [endOut, verdict, hm, Out.answer]

theorem attrLoop_one (a : Attribute δ) : attrLoop op ava type .compareFalse [a] = (attrTest op ava type a).map Out.answer := by
  rw [attrLoop]
  split
  · rename_i h
    rw [h, map_none]
  · rename_i h
    rw [h]
    rfl
  · rename_i h
    rw [h]
    rfl

theorem attrTest_cleared_ne_none (a : Attribute δ) : attrTest op ava type a.cleared ≠ none := by
  unfold attrTest Attribute.cleared
  simp only [Bool.false_eq_true, false_and, if_false]
  split
  · simp
  · split <;> simp

theorem same_of_eq {a : Attribute δ} (h : attrTest op ava type a = attrTest op ava type a.cleared) :
    Same (attrLoop op ava type .compareFalse [a]) (attrLoop op ava type .compareFalse [a.cleared]) := by
  rw [attrLoop_one, attrLoop_one, h]
  refine Same.refl fun hnone => attrTest_cleared_ne_none a (Option.map_eq_none_iff.mp hnone)

theorem same_no_match {a : Attribute δ} {mr : MatchingRule} (htest : Tested op ava a) (htype : type = .ge ∨ type = .le)
    (hmr : (op.rules a.desc).sat_ordering = some mr) (hg : mr.smr_match = none) (hsorted : a.sorted = true) :
    ¬ Same (attrLoop op ava type .compareFalse [a]) (attrLoop op ava type .compareFalse [a.cleared]) := by
  have hrule : ruleFor (op.rules a.desc) type = some mr := by rcases htype with rfl | rfl <;> exact hmr
  have happrox : type ≠ .approx := by rcases htype with rfl | rfl <;> decide
  rintro ⟨x, y, hx, hy, htrue, hfalse⟩
  rw [attrLoop_one, map_eq_some_iff] at hx hy
  obtain ⟨o, ho, rfl⟩ := hx
  obtain ⟨o', ho', rfl⟩ := hy
  unfold attrTest at ho
  simp only [if_neg htest, hrule, if_pos (And.intro hsorted happrox), if_pos htype, valueMatch, hg,
    map_eq_some_iff] at ho
  obtain ⟨last, -, rfl⟩ := ho
  unfold attrTest Attribute.cleared at ho'
  simp only [if_neg htest, hrule, Bool.false_eq_true, false_and, if_false, orderedValueMatch, hg, Option.some.injEq] at ho'
  rw [← ho', scan_spec] at htrue hfalse
  split at htrue
  · rename_i hnone
    simp only [hnone] at hfalse
    exact absurd (hfalse.mpr rfl) (by simp [Out.answer, endOut])
  · rename_i v hv
    simp [Out.answer, endOut] at htrue

theorem same_iff {a : Attribute δ} {mr : MatchingRule} {g : Match} (htest : Tested op ava a) (htype : type = .ge ∨ type = .le)
    (hmr : (op.rules a.desc).sat_ordering = some mr) (hg : mr.smr_match = some g) (hsorted : a.sorted = true)
    (hplain : (op.rules a.desc).ordered = false) :
    Same (attrLoop op ava type .compareFalse [a]) (attrLoop op ava type .compareFalse [a.cleared]) ↔
      EndDecides type (fun v => g v ava.value) a.nvals := by
  obtain ⟨hend, hscan⟩ := attrTest_end htest htype hmr hg hsorted hplain
  rw [attrLoop_one, attrLoop_one, hend, hscan]
  constructor
  · rintro ⟨x, y, hx, hy, htrue, hfalse⟩
    obtain ⟨o, ho, rfl⟩ := Option.map_eq_some_iff.mp hx
    obtain ⟨last, hlast, rfl⟩ := Option.map_eq_some_iff.mp ho
    refine ⟨last, hlast, fun v hv => ?_⟩
    obtain rfl := Option.some.inj hy
    rw [scan_spec, hv] at htrue hfalse
    have hhit := List.find?_some hv
    rw [(endOut_answer _).1] at htrue
    rw [(endOut_answer _).2] at hfalse
    cases hgv : g v ava.value with
    | error e =>
      -- the scan has neither answer
      simp only [hgv, Out.answer, getD_some, reduceCtorEq, iff_false] at htrue hfalse
      cases hlastv : verdict type (g last ava.value) with
      | none => simp only [hgv]; rfl
      | some b => cases b <;> simp [hlastv] at htrue hfalse
    | ok m =>
      simp only [hgv, Out.answer, iff_true] at htrue
      rw [htrue]
      simpa [verdict, hgv] using hhit
  · rintro ⟨last, hlast, hsame⟩
    obtain ⟨hok, herr⟩ := scan_verdict (f := fun v => g v ava.value) (endValue_mem hlast) hsame
    rw [hlast, map_some, map_some]
    cases hgl : g last ava.value with
    | error e =>
      obtain ⟨e', he'⟩ := herr (by simp only [hgl]; rfl)
      rw [map_some, he']
      exact ⟨_, _, rfl, rfl, by simp [Out.answer, endOut], by simp [Out.answer, endOut]⟩
    | ok m =>
      rw [map_some, hok (holds type m) (by simp only [hgl]; rfl)]
      exact Same.refl (by simp)

theorem attrLoop_cleared_ne_none (attrs : List (Attribute δ)) (rc : Answer) :
    attrLoop op ava type rc (attrs.map Attribute.cleared) ≠ none := by
  induction attrs generalizing rc with
  | nil => exact some_ne_none rc
  | cons a attrs ih =>
    rw [map_cons, attrLoop]
    split
    · rename_i h
      exact absurd h (attrTest_cleared_ne_none a)
    · exact some_ne_none _
    · exact ih _

omit [DecidableEq δ] in
theorem endValue_spec {eq : List Char → List Char → Ordering} {nvals : List (List Char)}
    (htype : type = .ge ∨ type = .le) (hne : nvals ≠ []) (hsorted : nvals.Pairwise fun v w => eq v w = .lt) :
    ∃ last, endValue type nvals = some last ∧
      ∀ v ∈ nvals, v = last ∨ (type = .ge ∧ eq v last = .lt) ∨ (type = .le ∧ eq last v = .lt) := by
  rcases htype with rfl | rfl
  · obtain ⟨init, last, rfl⟩ := (eq_nil_or_concat nvals).resolve_left hne
    rw [concat_eq_append] at hsorted ⊢
    refine ⟨last, by simp [endValue], fun v hv => ?_⟩
    rcases List.mem_append.mp hv with hv | hv
    · exact .inr (.inl ⟨rfl, (List.pairwise_append.mp hsorted).2.2 v hv last (mem_singleton_self last)⟩)
    · exact .inl (List.mem_singleton.mp hv)
  · obtain ⟨first, rest, rfl⟩ := exists_cons_of_ne_nil hne
    refine ⟨first, rfl, fun v hv => ?_⟩
    rcases List.mem_cons.mp hv with rfl | hv
    · exact .inl rfl
    · exact .inr (.inr ⟨rfl, (List.pairwise_cons.mp hsorted).1 v hv⟩)

omit [DecidableEq δ] in
theorem decided_of_same_order {eq : List Char → List Char → Ordering} [Std.TransCmp eq] {nvals : List (List Char)}
    (htype : type = .ge ∨ type = .le) (hne : nvals ≠ []) (hsorted : nvals.Pairwise fun v w => eq v w = .lt) (value : List Char) :
    Decided type ⟨some fun v a => .ok (eq v a)⟩ nvals value := by
  obtain ⟨last, hlast, hends⟩ := endValue_spec htype hne hsorted
  refine ⟨⟨_, rfl, last, hlast, fun v hv => ?_⟩, ?_⟩
  · have hhit := List.find?_some hv
    rcases hends v (List.mem_of_find?_eq_some hv) with rfl | ⟨rfl, hlt⟩ | ⟨rfl, hlt⟩
    · rfl
    · have hv' : eq v value ≠ .lt := by simpa [verdict, holds] using hhit
      have hlast' : eq last value ≠ .lt := fun h => hv' (Std.TransCmp.lt_trans hlt h)
      simp [verdict, holds, hv', hlast']
    · have hv' : eq v value ≠ .gt := by simpa [verdict, holds] using hhit
      have hlast' : eq last value ≠ .gt := fun h =>
        hv' (Std.OrientedCmp.gt_iff_lt.mpr (Std.TransCmp.lt_trans (Std.OrientedCmp.gt_iff_lt.mp h) hlt))
      simp [verdict, holds, hv', hlast']
  · intro g hg last _
    obtain rfl := Option.some.inj hg
    simp [verdict]

theorem test_ava_filter_sorted (op : Op δ) (ava : AttributeAssertion δ) (type : FilterType) (attrs : List (Attribute δ))
    (h : ∀ a ∈ attrs, Sorted op a) :
    ((∀ a ∈ attrs, OrderDecided op ava type a) → ∃ r, testAvaFilter op ava type attrs = some r ∧
      testAvaFilter op ava type (attrs.map Attribute.cleared) = some r) ∧
    (∀ a, attrs.filter (fun a => op.isSubtype a.desc ava.desc) = [a] →
      (Same (testAvaFilter op ava type attrs) (testAvaFilter op ava type (attrs.map Attribute.cleared)) ↔
        (Reached op ava → EndDecided op ava type a))) := by
  by_cases hreached : Reached op ava
  case neg =>
    obtain ⟨hsame, hnone⟩ := @testAvaFilter_other δ _ op ava type hreached attrs (attrs.map Attribute.cleared)
    obtain ⟨r, hr⟩ := Option.ne_none_iff_exists'.mp hnone
    exact ⟨fun _ => ⟨r, hr, hsame ▸ hr⟩, fun a _ => ⟨fun _ hreached' => absurd hreached' hreached, fun _ => hsame ▸ Same.refl hnone⟩⟩
  rw [testAvaFilter_reached hreached, testAvaFilter_reached hreached, filter_cleared (op.isSubtype · ava.desc)]
  constructor
  · intro hdecided
    have hall : List.Forall₂ (fun a a' => attrTest op ava type a = attrTest op ava type a')
        (attrs.filter fun a => op.isSubtype a.desc ava.desc)
        ((attrs.filter fun a => op.isSubtype a.desc ava.desc).map Attribute.cleared) := by
      rw [forall₂_map_right_iff, forall₂_same]
      exact fun a ha => attrTest_cleared (h a (mem_of_mem_filter ha)) (hdecided a (mem_of_mem_filter ha))
    rw [attrLoop_congr hall]
    obtain ⟨r, hr⟩ := Option.ne_none_iff_exists'.mp (@attrLoop_cleared_ne_none δ _ op ava type
      (attrs.filter fun a => op.isSubtype a.desc ava.desc) .compareFalse)
    exact ⟨r, hr, hr⟩
  · intro a ha
    have hmem : a ∈ attrs := mem_of_mem_filter (ha ▸ mem_singleton_self a)
    rw [ha, map_singleton]
    by_cases hcase : a.sorted = true ∧ (type = .ge ∨ type = .le) ∧ Tested op ava a ∧ (op.rules a.desc).sat_ordering ≠ none
    case neg =>
      have hdecided : OrderDecided op ava type a := fun hsorted htype htest mr hmr =>
        absurd ⟨hsorted, htype, htest, fun hnone => by rw [hnone] at hmr; cases hmr⟩ hcase
      refine ⟨fun _ _ => fun hsorted htype htest mr hmr => (hdecided hsorted htype htest mr hmr).ends, fun _ => ?_⟩
      exact same_of_eq (attrTest_cleared (h a hmem) hdecided)
    obtain ⟨hsorted, htype, htest, hrule⟩ := hcase
    obtain ⟨mr, hmr⟩ := Option.ne_none_iff_exists'.mp hrule
    cases hg : mr.smr_match with
    | none =>
      refine ⟨fun hsame => absurd hsame (same_no_match htest htype hmr hg hsorted), fun hends => ?_⟩
      obtain ⟨g, hg', -⟩ := hends hreached hsorted htype htest mr hmr
      rw [hg] at hg'
      cases hg'
    | some g =>
      rw [same_iff htest htype hmr hg hsorted ((h a hmem).by_rule hsorted).plain]
      constructor
      · intro hends _ _ _ _ mr' hmr'
        obtain rfl := Option.some.inj (hmr.symm.trans hmr')
        exact ⟨g, hg, hends⟩
      · intro hends
        obtain ⟨g', hg', hdecides⟩ := hends hreached hsorted htype htest mr hmr
        obtain rfl := Option.some.inj (hg.symm.trans hg')
        exact hdecides

end

/-- A type with an order of its values for equality and one for `>=` and `<=`. -/
def typeOf (eq ordering : List Char → List Char → Ordering) : Op ℕ where
  accessAllowed _ := true
  isSubtype a b := a = b
  rules _ := ⟨some eq, none, some ⟨some fun v a => .ok (ordering v a)⟩, false⟩
  siAdHasSubordinates := 1
  siAdEntryDN := 2
  beHasSubordinates := none
  entryDNMatch _ _ := .ok .eq
  entryNname := []

theorem typeOf_sorted {eq ordering : List Char → List Char → Ordering} [Std.TransCmp eq] {nvals : List (List Char)}
    (h : nvals.Pairwise fun v w => eq v w = .lt) (desc : ℕ) : Sorted (typeOf eq ordering) ⟨desc, nvals, true⟩ where
  trans := fun _ heq => Option.some.inj heq ▸ inferInstance
  by_rule := fun _ => ⟨fun _ heq => Option.some.inj heq ▸ h, rfl⟩

theorem test_ava_filter_sorted_octets : ∃ r,
    testAvaFilter (typeOf octetStringOrderingMatch octetStringOrderingMatch) ⟨0, "b".toList⟩ .ge
      [⟨0, ["a".toList, "c".toList], true⟩] = some r ∧
    testAvaFilter (typeOf octetStringOrderingMatch octetStringOrderingMatch) ⟨0, "b".toList⟩ .ge
      ([⟨0, ["a".toList, "c".toList], true⟩].map Attribute.cleared) = some r := by
  have hsorted : ["a".toList, "c".toList].Pairwise fun v w => octetStringOrderingMatch v w = .lt := by decide
  refine (test_ava_filter_sorted (typeOf octetStringOrderingMatch octetStringOrderingMatch) ⟨0, "b".toList⟩ .ge
    [⟨0, ["a".toList, "c".toList], true⟩] fun a ha => ?_).1 fun a ha => ?_
  · exact List.mem_singleton.mp ha ▸ typeOf_sorted hsorted 0
  · obtain rfl := List.mem_singleton.mp ha
    intro _ _ _ mr hmr
    obtain rfl := Option.some.inj hmr
    exact decided_of_same_order (.inl rfl) (by decide) hsorted _

/-- `octetStringMatch` has the shorter value first, `octetStringOrderingMatch` does not. -/
theorem test_ava_filter_other_order :
    Sorted (typeOf berBvcmp octetStringOrderingMatch) ⟨0, ["b".toList, "aa".toList], true⟩ ∧
    testAvaFilter (typeOf berBvcmp octetStringOrderingMatch) ⟨0, "b".toList⟩ .ge
      [⟨0, ["b".toList, "aa".toList], true⟩] = some .compareFalse ∧
    testAvaFilter (typeOf berBvcmp octetStringOrderingMatch) ⟨0, "b".toList⟩ .ge
      ([⟨0, ["b".toList, "aa".toList], true⟩].map Attribute.cleared) = some .compareTrue :=
  ⟨typeOf_sorted (by decide) 0, by decide, by decide⟩

end AvaFilter
end Slapd
end ReOpenLDAP
