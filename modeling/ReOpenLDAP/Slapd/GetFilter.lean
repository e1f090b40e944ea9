import ReOpenLDAP.BackMdb.Filter
import ReOpenLDAP.Lib.Ber

/-!
# Slapd.GetFilter

`get_filter`: from the BER elements of a search request to a filter, and `test_filter` on what it builds.

An element is primitive exactly if its tag says so. Where the code would read elements in a primitive one, there is no result.
-/

namespace ReOpenLDAP
namespace Slapd

open BackMdb (Byte Value AttributeDescription Compare MraRule)

/-- The items with an `AttributeAssertion`. -/
inductive AvaChoice where
  | equality
  | ge
  | le
  | approx
deriving DecidableEq

structure MatchingRuleAssertion where
  ruleText : Option Value
  rule : MraRule
  desc : Option AttributeDescription
  value : Value
  dnattrs : Bool
deriving DecidableEq

mutual

/-- `Filter`. `undefined` stands for every item with `SLAPD_FILTER_UNDEFINED`. The lists of AND and OR are not empty: `get_filter`
makes those constants. -/
inductive Filter where
  | undefined
  | computed (result : Compare)
  | present (desc : AttributeDescription)
  | ava (choice : AvaChoice) (desc : AttributeDescription) (value : Value)
  | substrings (desc : AttributeDescription) (initial : Option Value) (any : List Value) (final : Option Value)
  | ext (mra : MatchingRuleAssertion)
  | not (f : Filter)
  | and (fs : FilterList)
  | or (fs : FilterList)

/-- Filters linked by `f_next`. -/
inductive FilterList where
  | last (f : Filter)
  | cons (f : Filter) (fs : FilterList)

end

mutual

/-- `test_filter` on an entry on which the items evaluate as `leaf` says. -/
def testFilter (leaf : Filter → Compare) : Filter → Compare
  | .undefined => .undefined
  | .computed result => result
  | .not f =>
    -- Flip true to false and false to true but leave Undefined alone.
    match testFilter leaf f with
    | .true => .false
    | .false => .true
    | r => r
  | .and fs => testFilterAnd leaf .true fs
  | .or fs => testFilterOr leaf .false fs
  | f => leaf f

/-- The loop of `test_filter_and` behind the result `rtn`. -/
def testFilterAnd (leaf : Filter → Compare) (rtn : Compare) : FilterList → Compare
  | .last f =>
    match testFilter leaf f with
    | .false => .false
    | .true => rtn
    | r => r
  | .cons f fs =>
    match testFilter leaf f with
    | .false => .false
    | .true => testFilterAnd leaf rtn fs
    | r => testFilterAnd leaf r fs

/-- The loop of `test_filter_or`. -/
def testFilterOr (leaf : Filter → Compare) (rtn : Compare) : FilterList → Compare
  | .last f =>
    match testFilter leaf f with
    | .true => .true
    | .false => rtn
    | r => r
  | .cons f fs =>
    match testFilter leaf f with
    | .true => .true
    | .false => testFilterOr leaf rtn fs
    | r => testFilterOr leaf r fs

end

def LDAP_FILTER_AND : Nat := 0xa0
def LDAP_FILTER_OR : Nat := 0xa1
def LDAP_FILTER_NOT : Nat := 0xa2
def LDAP_FILTER_EQUALITY : Nat := 0xa3
def LDAP_FILTER_SUBSTRINGS : Nat := 0xa4
def LDAP_FILTER_GE : Nat := 0xa5
def LDAP_FILTER_LE : Nat := 0xa6
def LDAP_FILTER_PRESENT : Nat := 0x87
def LDAP_FILTER_APPROX : Nat := 0xa8
def LDAP_FILTER_EXT : Nat := 0xa9

def LDAP_FILTER_EXT_OID : Nat := 0x81
def LDAP_FILTER_EXT_TYPE : Nat := 0x82
def LDAP_FILTER_EXT_VALUE : Nat := 0x83
def LDAP_FILTER_EXT_DNATTRS : Nat := 0x84

def LDAP_SUBSTRING_INITIAL : Nat := 0x80
def LDAP_SUBSTRING_ANY : Nat := 0x81
def LDAP_SUBSTRING_FINAL : Nat := 0x82

def LDAP_UNDEFINED_TYPE : Nat := 0x11

inductive MrUsage where
  | equality
  | ordering
  | equalityApprox
  | substrInitial
  | substrAny
  | substrFinal
deriving DecidableEq

def AvaChoice.usage : AvaChoice → MrUsage
  | .equality => .equality
  | .ge => .ordering
  | .le => .ordering
  | .approx => .equalityApprox

/-- What `get_filter` looks up in the schema. Errors are result codes. `raw` are the octets of elements. -/
structure FilterContext where
  bv2ad : Value → Except Nat AttributeDescription
  /-- `slap_bv2undef_ad` -/
  bv2undefAd : Value → Except Nat AttributeDescription
  /-- `slap_bv2tmp_ad` -/
  bv2tmpAd : Value → AttributeDescription
  /-- `sat_substr != NULL` -/
  substr : AttributeDescription → Bool
  /-- `asserted_value_validate_normalize` with the rule for the usage -/
  validate : MrUsage → AttributeDescription → Value → Except Nat Value
  mrBvfind : Value → Option MraRule
  /-- `sat_equality`, if it supports extensible matching -/
  extEquality : AttributeDescription → Option MraRule
  mrUsable : MraRule → AttributeDescription → Bool
  /-- `asserted_value_validate_normalize` for an extensible match -/
  validateExt : Option AttributeDescription → MraRule → Value → Except Nat Value
  raw : Elements Value → Value

variable (ctx : FilterContext)

/-- `ber_scanf` with `m` -/
def octets : Elements Value → Option (Value × Elements Value)
  | .nil => none
  | .prim _ v rest => some (v, rest)
  | .cons _ c rest => some (ctx.raw c, rest)

/-! ## Items -/

/-- The item of `get_ava`. A type that is not known sets `SLAPD_FILTER_UNDEFINED`, and so does a value that is not valid. -/
def avaItem (choice : AvaChoice) (type value : Value) : Filter :=
  match ctx.bv2ad type with
  | .error _ => .undefined
  | .ok ad =>
    match ctx.validate choice.usage ad value with
    | .error _ => .undefined
    | .ok nvalue => .ava choice ad nvalue

def getAva (choice : AvaChoice) (s : Elements Value) : Option (Filter × Elements Value) :=
  s.enter.bind fun r => (octets ctx r.1).bind fun t => (octets ctx t.2).map fun v => (avaItem ctx choice t.1 v.1, v.2)

/-- The case `LDAP_FILTER_PRESENT` of `get_filter`. -/
def presentItem (type : Value) : Filter :=
  match ctx.bv2ad type with
  | .ok ad => .present ad
  | .error rc =>
    if rc = LDAP_UNDEFINED_TYPE then
      match ctx.bv2undefAd type with
      | .ok _ => .undefined
      -- a temporary description, and `SLAPD_FILTER_UNDEFINED` is set
      | .error rc => if rc = LDAP_UNDEFINED_TYPE then .undefined else .computed .undefined
    else .computed .undefined

/-- `SubstringsAssertion`, and whether `SLAPD_FILTER_UNDEFINED` is set and a component has been read. -/
structure Ssa where
  initial : Option Value
  any : List Value
  final : Option Value
  undefined : Bool
  success : Bool
deriving DecidableEq

/-- One round of the loop of `get_ssa`; none for `return_error`. -/
def ssaStep (ad : AttributeDescription) (ssa : Ssa) (tag : Nat) (value : Value) : Option Ssa :=
  let store := fun usage (put : Value → Ssa) =>
    match ctx.validate usage ad value with
    | .ok nvalue => { put nvalue with success := true }
    | .error _ => { put value with undefined := true, success := true }
  if value = [] then none
  else if tag = LDAP_SUBSTRING_INITIAL then
    if ssa.initial.isSome ∨ ssa.any ≠ [] ∨ ssa.final.isSome then none
    else some (store .substrInitial fun v => { ssa with initial := some v })
  else if tag = LDAP_SUBSTRING_ANY then
    if ssa.final.isSome then none else some (store .substrAny fun v => { ssa with any := ssa.any ++ [v] })
  else if tag = LDAP_SUBSTRING_FINAL then
    if ssa.final.isSome then none else some (store .substrFinal fun v => { ssa with final := some v })
  else none

/-- The filter behind the loop of `get_ssa`. A substrings item without components is an error. -/
def ssaItem (ad : AttributeDescription) (ssa : Ssa) : Filter :=
  if ssa.success then
    if ssa.undefined then .undefined else .substrings ad ssa.initial ssa.any ssa.final
  else .computed .undefined

/-- The loop of `get_ssa`, which ends where `last` elements are left. -/
def ssaLoop (ad : AttributeDescription) (last : Nat) (ssa : Ssa) : Elements Value → Filter × Elements Value
  | .nil => (ssaItem ad ssa, .nil)
  | .prim tag v rest =>
    if rest.size + 1 ≤ last then (ssaItem ad ssa, .prim tag v rest)
    else
      match ssaStep ctx ad ssa tag v with
      | some ssa => ssaLoop ad last ssa rest
      | none => (.computed .undefined, rest)
  | .cons tag c rest =>
    if c.size + rest.size + 1 ≤ last then (ssaItem ad ssa, .cons tag c rest)
    else
      match ssaStep ctx ad ssa tag (ctx.raw c) with
      | some ssa => ssaLoop ad last ssa rest
      | none => (.computed .undefined, rest)

/-- The description of a substrings item, and whether `SLAPD_FILTER_UNDEFINED` is set; none for an error. -/
def ssaDesc (type : Value) : Option (AttributeDescription × Bool) :=
  match ctx.bv2ad type with
  | .ok ad => some (ad, false)
  | .error rc =>
    if rc = LDAP_UNDEFINED_TYPE then
      match ctx.bv2undefAd type with
      | .ok ad => some (ad, true)
      | .error rc => if rc = LDAP_UNDEFINED_TYPE then some (ctx.bv2tmpAd type, true) else none
    else none

def getSsa (s : Elements Value) : Option (Filter × Elements Value) :=
  s.enter.bind fun r => (octets ctx r.1).bind fun t =>
    match ssaDesc ctx t.1 with
    | none => some (.computed .undefined, t.2)
    | some (ad, undefined) =>
      let ssa : Ssa := ⟨none, [], none, undefined || !ctx.substr ad, false⟩
      if t.2 = .nil then some (ssaItem ad ssa, .nil) else t.2.enter.map fun e => ssaLoop ctx ad e.2 ssa e.1

/-- The item of `get_mra`. -/
def mraItem (ruleText type : Option Value) (value : Value) (dnattrs : Bool) : Filter :=
  let desc := type.map fun type =>
    match ctx.bv2ad type with
    | .ok ad => (ad, false)
    | .error _ =>
      match ctx.bv2undefAd type with
      | .ok ad => (ad, true)
      | .error _ => (ctx.bv2tmpAd type, true)
  let rule :=
    match ruleText with
    | some text => ctx.mrBvfind text
    | none => desc.bind fun d => ctx.extEquality d.1
  match rule with
  | none => .computed .undefined
  | some rule =>
    if desc.any fun d => !ctx.mrUsable rule d.1 then .computed .undefined
    else
      match ctx.validateExt (desc.map (·.1)) rule value with
      | .error _ => .computed .undefined
      | .ok nvalue => if desc.any (·.2) then .undefined else .ext ⟨ruleText, rule, desc.map (·.1), nvalue, dnattrs⟩

def optional (tag : Nat) (s : Elements Value) : Option (Option Value × Elements Value) :=
  if s.tag? = some tag then (octets ctx s).map fun r => (some r.1, r.2) else some (none, s)

/-- `ber_get_boolean`: at most four octets, and whether one of them is not zero. -/
def getBoolean (v : Value) : Option Bool := if 4 < v.length then none else some (v.any (· ≠ 0))

def getMra (s : Elements Value) : Option (Filter × Elements Value) :=
  s.enter.bind fun r => (optional ctx LDAP_FILTER_EXT_OID r.1).bind fun rule =>
    (optional ctx LDAP_FILTER_EXT_TYPE rule.2).bind fun type =>
      if type.2.tag? = some LDAP_FILTER_EXT_VALUE then
        (octets ctx type.2).bind fun value => (optional ctx LDAP_FILTER_EXT_DNATTRS value.2).bind fun dnattrs =>
          (getBoolean (dnattrs.1.getD [])).map fun b => (mraItem ctx rule.1 type.1 value.1 b, dnattrs.2)
      else none

def filterList (f : Filter) : List Filter → FilterList
  | [] => .last f
  | g :: fs => .cons f (filterList g fs)

/-- The case `LDAP_FILTER_NOT` of `get_filter`. The result and the pointer to the inner filter share their place: a constant that
is neither true nor false leaves a null pointer, which reads as 0. -/
def notFilter : Filter → Filter
  | .computed .true => .computed .false
  | .computed .false => .computed .true
  | .computed _ => .computed .success
  | f => .not f

mutual

/-- `get_filter`, with a bound for its recursion. -/
def getFilterN : Nat → Elements Value → Option (Filter × Elements Value)
  | 0, _ => none
  | n + 1, s =>
    match s.tag? with
    | none => none
    | some tag =>
      if tag = LDAP_FILTER_EQUALITY then getAva ctx .equality s
      else if tag = LDAP_FILTER_SUBSTRINGS then getSsa ctx s
      else if tag = LDAP_FILTER_GE then getAva ctx .ge s
      else if tag = LDAP_FILTER_LE then getAva ctx .le s
      else if tag = LDAP_FILTER_PRESENT then (octets ctx s).map fun r => (presentItem ctx r.1, r.2)
      else if tag = LDAP_FILTER_APPROX then getAva ctx .approx s
      else if tag = LDAP_FILTER_AND then
        s.enter.bind fun r => (getFilterListN n r.2 r.1).map fun l =>
          match l.1 with
          | [] => (.computed .true, l.2)
          | f :: fs => (.and (filterList f fs), l.2)
      else if tag = LDAP_FILTER_OR then
        s.enter.bind fun r => (getFilterListN n r.2 r.1).map fun l =>
          match l.1 with
          | [] => (.computed .false, l.2)
          | f :: fs => (.or (filterList f fs), l.2)
      else if tag = LDAP_FILTER_NOT then
        s.enter.bind fun r => (getFilterN n r.1).map fun f => (notFilter f.1, f.2)
      else if tag = LDAP_FILTER_EXT then getMra ctx s
      else s.skip.map fun rest => (.computed .undefined, rest)

/-- `get_filter_list`, which ends where `last` elements are left. -/
def getFilterListN : Nat → Nat → Elements Value → Option (List Filter × Elements Value)
  | 0, _, _ => none
  | n + 1, last, s =>
    if s.size ≤ last then some ([], s)
    else (getFilterN n s).bind fun f => (getFilterListN n last f.2).map fun fs => (f.1 :: fs.1, fs.2)

end

def getFilter (s : Elements Value) : Option (Filter × Elements Value) := getFilterN ctx (2 * s.size) s

end Slapd
end ReOpenLDAP
