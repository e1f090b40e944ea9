import ReOpenLDAP.BackMdb.IdlSets
import ReOpenLDAP.BackMdb.Index

/-!
# BackMdb.Filter

Search filters: their evaluation on an entry (`test_filter`) and the candidate lists that
`mdb_filter_candidates` computes for them from the indices.

Every function here returns what the source leaves in `rc` and in `ids`. The lists of an AND or OR
are combined in `ids`, each member's own list being computed in a scratch area that starts empty.
-/

namespace ReOpenLDAP
namespace BackMdb

/-- Result codes of `test_filter` and of a computed filter. -/
inductive Compare where
  | false
  | true
  | undefined
  | success
  | other (code : Nat)
deriving DecidableEq

/-- The rules `ext_candidates` tells apart. -/
inductive MraRule where
  | distinguishedNameMatch
  | dnSuperiorMatch
  | dnSubtreeMatch
  | dnOneLevelMatch
  | dnSubordinateMatch
  /-- Another rule with `smr_match == dnRelativeMatch`. -/
  | dnRelative
  | other
deriving DecidableEq

/-- `MatchingRuleAssertion` -/
structure Mra where
  desc : Option AttributeDescription
  rule : MraRule
  value : Value
deriving DecidableEq

mutual

/-- `Filter`. `undefined` stands for every choice with the `SLAPD_FILTER_UNDEFINED` bit, `unknown` for
a choice that is none of the others. The lists of AND and OR are not empty: `get_filter` makes those
computed filters. -/
inductive Filter where
  | undefined
  | computed (result : Compare)
  | present (desc : AttributeDescription)
  | equality (desc : AttributeDescription) (value : Value)
  | approx (desc : AttributeDescription) (value : Value)
  | substrings (desc : AttributeDescription) (initial : Option Value) (any : List Value)
      (final : Option Value)
  | ge (desc : AttributeDescription) (value : Value)
  | le (desc : AttributeDescription) (value : Value)
  | not (f : Filter)
  | and (fs : FilterList)
  | or (fs : FilterList)
  | ext (mra : Mra)
  | unknown

/-- Filters linked by `f_next`. -/
inductive FilterList where
  | last (f : Filter)
  | cons (f : Filter) (fs : FilterList)

end

def FilterList.toList : FilterList → List Filter
  | .last f => [f]
  | .cons f fs => f :: fs.toList

def FilterList.head : FilterList → Filter
  | .last f => f
  | .cons f _ => f

def Filter.IsItem : Filter → Prop
  | .not _ | .and _ | .or _ => False
  | _ => True

mutual

theorem Filter.inductionOn {P : Filter → Prop} (item : ∀ f : Filter, f.IsItem → P f)
    (not : ∀ f, P f → P (.not f)) (and : ∀ fs : FilterList, (∀ f ∈ fs.toList, P f) → P (.and fs))
    (or : ∀ fs : FilterList, (∀ f ∈ fs.toList, P f) → P (.or fs)) : ∀ f, P f
  | .undefined => item _ trivial
  | .computed _ => item _ trivial
  | .present _ => item _ trivial
  | .equality _ _ => item _ trivial
  | .approx _ _ => item _ trivial
  | .substrings _ _ _ _ => item _ trivial
  | .ge _ _ => item _ trivial
  | .le _ _ => item _ trivial
  | .not f => not f (Filter.inductionOn item not and or f)
  | .and fs => and fs (FilterList.inductionOn item not and or fs)
  | .or fs => or fs (FilterList.inductionOn item not and or fs)
  | .ext _ => item _ trivial
  | .unknown => item _ trivial

theorem FilterList.inductionOn {P : Filter → Prop} (item : ∀ f : Filter, f.IsItem → P f)
    (not : ∀ f, P f → P (.not f)) (and : ∀ fs : FilterList, (∀ f ∈ fs.toList, P f) → P (.and fs))
    (or : ∀ fs : FilterList, (∀ f ∈ fs.toList, P f) → P (.or fs)) : ∀ fs : FilterList, ∀ f ∈ fs.toList, P f
  | .last f => by
    have h := Filter.inductionOn item not and or f
    simpa [FilterList.toList] using h
  | .cons f fs => by
    have h := Filter.inductionOn item not and or f
    have hs := FilterList.inductionOn item not and or fs
    simpa [FilterList.toList] using ⟨h, hs⟩

end

mutual

/-- `test_filter` on an entry on which the items evaluate as `leaf` says. -/
def testFilter (leaf : Filter → Compare) : Filter → Compare
  | .undefined => .undefined
  | .computed result => result
  | .not f =>
    -- Flip true to false and false to true but leave Undefined alone.
    match testFilter leaf f with
    | .true => .false
    | .false => .true
    | r => r
  | .and fs => testFilterAnd leaf .true fs
  | .or fs => testFilterOr leaf .false fs
  | .unknown => .other 2
  | f => leaf f

def testFilterAnd (leaf : Filter → Compare) (rtn : Compare) : FilterList → Compare
  | .last f =>
    match testFilter leaf f with
    | .false => .false
    | .true => rtn
    | r => r
  | .cons f fs =>
    match testFilter leaf f with
    | .false => .false
    | .true => testFilterAnd leaf rtn fs
    | r => testFilterAnd leaf r fs

def testFilterOr (leaf : Filter → Compare) (rtn : Compare) : FilterList → Compare
  | .last f =>
    match testFilter leaf f with
    | .true => .true
    | .false => rtn
    | r => r
  | .cons f fs =>
    match testFilter leaf f with
    | .true => .true
    | .false => testFilterOr leaf rtn fs
    | r => testFilterOr leaf r fs

end

/-- What `mdb_filter_candidates` reads. -/
structure FilterEnv where
  schema : Schema
  mdb : MdbInfo
  /-- The index databases: their keys in order, each with its data items. -/
  index : Nat → List (Key × List Nat)
  /-- The error that reading a key runs into, if any. -/
  readError : Nat → Key → Option Nat
  /-- `mdb_read_nextid` -/
  nextid : Nat
  /-- `MDBX_LAST` on id2entry. -/
  lastEntry : Except Rc Nat
  mdbDn2id : Value → Except Rc Nat
  mdbDn2sups : Value → IDL
  /-- `dnIsSuffix(value, be_nsuffix)` -/
  dnIsSuffix : Value → Bool
  /-- `slap_schema.si_ad_objectClass` -/
  objectClass : AttributeDescription
  /-- `slap_schema.si_ad_entryDN` -/
  entryDN : AttributeDescription
  /-- `op->ors_limit->lms_s_unchecked`, if there are limits and it is not -1. -/
  unchecked : Option Nat

/-- `rc` (`none` is 0) and `ids`. -/
abbrev Cands := Option Rc × IDL

def fetch (error : Option Nat) (ds : List Nat) : Except Rc IDL :=
  match error with
  | some code => .error (.io code)
  | none => mdbIdlFetchKey ds

/-- `mdb_key_read` without a saved cursor. -/
def mdbKeyRead (env : FilterEnv) (dbi : Nat) (key : Key) : Except Rc IDL :=
  fetch (env.readError dbi key) (((env.index dbi).lookup key).getD [])

/-! ## Items -/

def presenceCandidates (env : FilterEnv) (desc : AttributeDescription) : Cands :=
  if desc = env.objectClass then (none, .all)
  else match mdbIndexParam env.schema env.mdb desc .present with
    | none => (none, .all)
    | some p =>
      match mdbKeyRead env p.dbi presenceKey with
      | .ok ids => (none, ids)
      | .error .notfound => (none, .zero)
      | .error rc => (some rc, .all)

def keysLoop (env : FilterEnv) (dbi : Nat) (first : Bool) : List Key → IDL → Cands
  | [], ids => (none, ids)
  | key :: keys, ids =>
    match mdbKeyRead env dbi key with
    | .error .notfound => (none, .zero)
    | .error rc => (some rc, ids)
    | .ok tmp =>
      if tmp.isZero then (none, .zero)
      else
        let ids := if first then tmp else mdbIdlIntersection ids tmp
        if ids.isZero then (none, ids) else keysLoop env dbi false keys ids

/-- `smr_filter` of a matching rule, when there is one and it yields keys. -/
def filterKeys (mr : Option MatchingRule) (ftype : FilterType) (p : IndexParam) (a : Assertion) :
    Option (List Key) :=
  match mr with
  | none => none
  | some mr =>
    match mr.filter with
    | none => none
    | some smrFilter => smrFilter ftype p.mask p.pre a

/-- What `equality_candidates`, `approx_candidates` and `substring_candidates` share. -/
def ruleCandidates (env : FilterEnv) (desc : AttributeDescription) (ftype : FilterType)
    (mr : Option MatchingRule) (a : Assertion) : Cands :=
  match mdbIndexParam env.schema env.mdb desc ftype with
  | none => (none, .all)
  | some p =>
    match filterKeys mr ftype p a with
    | none => (none, .all)
    | some keys => keysLoop env p.dbi true keys .all

def equalityCandidates (env : FilterEnv) (desc : AttributeDescription) (value : Value) (ids : IDL) : Cands :=
  if desc = env.entryDN then
    match env.mdbDn2id value with
    -- exactly one ID can match
    | .ok id => (none, .list [id])
    | .error .notfound => (none, .zero)
    | .error rc => (some rc, ids)
  else ruleCandidates env desc .equality (env.schema.equality desc.type) (.value value)

def approxRule (schema : Schema) (type : AttributeType) : Option MatchingRule :=
  match schema.approx type with
  | some mr => some mr
  | none => schema.equality type

def approxCandidates (env : FilterEnv) (desc : AttributeDescription) (value : Value) : Cands :=
  ruleCandidates env desc .approx (approxRule env.schema desc.type) (.value value)

def substringCandidates (env : FilterEnv) (desc : AttributeDescription) (initial : Option Value)
    (any : List Value) (final : Option Value) : Cands :=
  ruleCandidates env desc .substrings (env.schema.substr desc.type) (.sub initial any final)

/-- The keys that a range lookup visits: keys of another length (the presence key) are skipped, and
a lookup from below ends at the first greater key. -/
def scanKeys (ge : Bool) (key : Key) (table : List (Key × List Nat)) : List (Key × List Nat) :=
  if ge then (table.dropWhile fun p => p.1 < key).filter fun p => p.1.length = key.length
  else (table.filter fun p => p.1.length = key.length).takeWhile fun p => p.1 ≤ key

def limitReached (unchecked : Option Nat) (ids : IDL) : Bool :=
  match unchecked with
  | some limit => limit ≤ ids.n
  | none => false

/-- The loop of `inequality_candidates`, which also returns whether the unchecked limit ended it
before the keys did. -/
def inequalityLoop (env : FilterEnv) (dbi : Nat) : List (Key × List Nat) → IDL → Cands × Bool
  | [], ids => ((none, ids), false)
  | (key, ds) :: rest, ids =>
    match fetch (env.readError dbi key) ds with
    | .error .notfound => ((none, ids), false)
    | .error rc => ((some rc, ids), false)
    | .ok tmp =>
      if tmp.isZero then ((none, ids), false)
      else
        let ids := mdbIdlUnion ids tmp
        if limitReached env.unchecked ids then ((none, ids), !rest.isEmpty)
        else inequalityLoop env dbi rest ids

/-- `inequality_candidates` with an index and keys at hand. -/
def inequalityScan (env : FilterEnv) (desc : AttributeDescription) (value : Value) (ge : Bool) :
    Option (Cands × Bool) :=
  match mdbIndexParam env.schema env.mdb desc .equality with
  | none => none
  | some p =>
    match filterKeys (env.schema.equality desc.type) .equality p (.value value) with
    | none => none
    | some keys =>
      some (inequalityLoop env p.dbi (scanKeys ge (keys.headD []) (env.index p.dbi)) .zero)

def inequalityCandidates (env : FilterEnv) (desc : AttributeDescription) (value : Value) (ge : Bool) : Cands :=
  match inequalityScan env desc value ge with
  | none => (none, .all)
  | some r => r.1

/-- `sat_ordering` with an ordered index. -/
def hasOrderedIndex (env : FilterEnv) (desc : AttributeDescription) : Bool :=
  match env.schema.ordering desc.type with
  | some mr => mr.orderedIndex
  | none => false

/-- The `LDAP_FILTER_GE` and `LDAP_FILTER_LE` cases: if no GE index, use pres. -/
def orderingCandidates (env : FilterEnv) (desc : AttributeDescription) (value : Value) (ge : Bool) : Cands :=
  if hasOrderedIndex env desc then inequalityCandidates env desc value ge
  else presenceCandidates env desc

def extCandidates (env : FilterEnv) (mra : Mra) : Cands :=
  let base : Cands := match env.mdbDn2id mra.value with
    | .ok id => (none, .list [id])
    | .error _ => (none, .zero)
  if mra.desc = some env.entryDN then
    match mra.rule with
    | .distinguishedNameMatch => base
    | .dnSuperiorMatch =>
      if env.dnIsSuffix mra.value then (none, env.mdbDn2sups mra.value) else (none, .all)
    | .dnRelative => if env.dnIsSuffix mra.value then base else (none, .all)
    | _ => (none, .all)
  else (none, .all)

/-- The end of `mdb_filter_candidates`: an open range is cut off at the last ID. The lookup of that
ID overwrites `rc`. -/
def clip (env : FilterEnv) (c : Cands) : Cands :=
  match c.2 with
  | .list _ => c
  | .range lo hi =>
    if hi = NOID then
      let (rc, last) : Option Rc × Nat :=
        if env.nextid ≠ 0 then (c.1, env.nextid)
        else match env.lastEntry with
          | .ok last => (none, last)
          | .error rc => (some rc, 0)
      if last ≠ 0 then (rc, .range lo last) else (rc, .zero)
    else c

inductive ListType where
  | and
  | or
deriving DecidableEq

/-- `SLAPD_FILTER_COMPUTED` with `LDAP_SUCCESS`: a precomputed scope. -/
def Filter.isScope : Filter → Bool
  | .computed .success => true
  | _ => false

/-- What the body of the loop of `list_candidates` does with a member's list: leave the loop, or go
on with new `ids`. -/
inductive ListStep where
  | stop (c : Cands)
  | next (ids : IDL)

def listMember (ftype : ListType) (head : Bool) (scope : Bool) (r : Cands) (ids : IDL) : ListStep :=
  -- ignore precomputed scopes
  if scope then .next ids
  else match r, ftype with
    | (some _, _), .and => .next ids
    | (some rc, _), .or => .stop (some rc, ids)
    | (none, save), .and =>
      let ids := if head then save else mdbIdlIntersection ids save
      if ids.isZero then .stop (none, ids) else .next ids
    | (none, save), .or => .next (if head then save else mdbIdlUnion ids save)

mutual

def mdbFilterCandidates (env : FilterEnv) : Filter → IDL → Cands
  | .undefined, _ => (none, .zero)
  | .computed .undefined, _ => clip env (none, .zero)
  | .computed .false, _ => clip env (none, .zero)
  | .computed .true, _ => clip env (none, .all)
  -- this is a pre-computed scope, leave it alone
  | .computed _, ids => clip env (none, ids)
  | .present desc, _ => clip env (presenceCandidates env desc)
  | .equality desc value, ids => clip env (equalityCandidates env desc value ids)
  | .approx desc value, _ => clip env (approxCandidates env desc value)
  | .substrings desc initial any final, _ => clip env (substringCandidates env desc initial any final)
  | .ge desc value, _ => clip env (orderingCandidates env desc value true)
  | .le desc value, _ => clip env (orderingCandidates env desc value false)
  -- no indexing to support NOT filters
  | .not _, _ => clip env (none, .all)
  | .and fs, ids => clip env (listCandidates env .and true fs ids)
  | .or fs, ids => clip env (listCandidates env .or true fs ids)
  | .ext mra, _ => clip env (extCandidates env mra)
  | .unknown, _ => clip env (none, .all)

/-- The loop of `list_candidates`; `head` says that the next member is the first of the list. -/
def listCandidates (env : FilterEnv) (ftype : ListType) (head : Bool) : FilterList → IDL → Cands
  | .last f, ids =>
    match listMember ftype head f.isScope (mdbFilterCandidates env f .zero) ids with
    | .stop c => c
    | .next ids => (none, ids)
  | .cons f fs, ids =>
    match listMember ftype head f.isScope (mdbFilterCandidates env f .zero) ids with
    | .stop c => c
    | .next ids => listCandidates env ftype false fs ids

end

end BackMdb
end ReOpenLDAP
