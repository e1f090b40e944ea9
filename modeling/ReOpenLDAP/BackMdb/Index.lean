import ReOpenLDAP.BackMdb.Idl
import Mathlib.Data.List.Lex
import Mathlib.Order.Fin.Basic

/-!
# BackMdb.Index

Attribute types and descriptions, the configured indices (`AttrInfo`), and which index a
description is looked up in (`mdb_index_mask`, `mdb_index_param`) and written to
(`index_at_values`).

The two sides choose differently: a lookup goes to one index, the most specific one that admits
the description, while `index_at_values` writes to the index of the type, of each of its
supertypes, and of each of these with the description's tags. Keys are computed by the matching
rules, which are parameters here.
-/

namespace ReOpenLDAP
namespace BackMdb

/-- Index keys, in the order of `memcmp` and then of length. -/
abbrev Key := List Byte

abbrev Value := List Byte

/-- What a filter item asserts: a value, or the parts of a `SubstringsAssertion`. -/
inductive Assertion where
  | value (v : Value)
  | sub (initial : Option Value) (any : List Value) (final : Option Value)
deriving DecidableEq

/-- `AttributeType`: its canonical name `sat_cname` and its supertype `sat_sup`. -/
inductive AttributeType where
  | root (cname : String)
  | sub (cname : String) (sup : AttributeType)
deriving DecidableEq

namespace AttributeType

/-- `sat_cname` -/
def cname : AttributeType → String
  | root cname => cname
  | sub cname _ => cname

end AttributeType

/-- `AttributeDescription`: a type with tagging options and the `;binary` flag. -/
structure AttributeDescription where
  type : AttributeType
  tags : String
  binary : Bool
deriving DecidableEq

/-- `sat_ad`, the description of a type without options. A type that was never used has none in
the source; it then has no index either. -/
def AttributeType.ad (type : AttributeType) : AttributeDescription := ⟨type, "", false⟩

namespace AttributeDescription

/-- `slap_ad_is_tagged` -/
def isTagged (desc : AttributeDescription) : Bool := desc.tags ≠ ""

/-- `ad_cname` -/
def cname (desc : AttributeDescription) : String :=
  desc.type.cname ++ (if desc.binary then ";binary" else "") ++
    (if desc.tags = "" then "" else ";" ++ desc.tags)

end AttributeDescription

def SLAP_INDEX_PRESENT : Nat := 0x0002
def SLAP_INDEX_EQUALITY : Nat := 0x0004
def SLAP_INDEX_APPROX : Nat := 0x0008
def SLAP_INDEX_SUBSTR : Nat := 0x0010
def SLAP_INDEX_NOSUBTYPES : Nat := 0x1000
def SLAP_INDEX_NOTAGS : Nat := 0x2000

def isSlapIndex (mask type : Nat) : Bool := mask &&& type == type

inductive FilterType where
  | present
  | equality
  | approx
  | substrings
deriving DecidableEq

/-- A matching rule: `smr_indexer` computes the keys of values, `smr_filter` those of an assertion.
Both take the index mask and the name the index is kept under; `none` stands for a failure and for
no keys alike, which no caller tells apart. A rule may have no `smr_filter`. -/
structure MatchingRule where
  indexer : FilterType → Nat → String → List Value → Option (List Key)
  filter : Option (FilterType → Nat → String → Assertion → Option (List Key))
  /-- `smr_usage & SLAP_MR_ORDERED_INDEX` -/
  orderedIndex : Bool

/-- The matching rules of the attribute types, and `ad_find_tags`. -/
structure Schema where
  equality : AttributeType → Option MatchingRule
  approx : AttributeType → Option MatchingRule
  substr : AttributeType → Option MatchingRule
  ordering : AttributeType → Option MatchingRule
  adFindTags : AttributeType → String → Option AttributeDescription

structure AttrInfo where
  desc : AttributeDescription
  dbi : Nat
  indexmask : Nat
  newmask : Nat
deriving DecidableEq

/-- `mi_attrs`, which is kept sorted by description and searched by halves. -/
abbrev MdbInfo := List AttrInfo

def mdbAttrMask (mdb : MdbInfo) (desc : AttributeDescription) : Option AttrInfo :=
  mdb.find? fun ai => ai.desc = desc

/-- The index of a type itself, unless its mask has `flag`. -/
def typeMask (mdb : MdbInfo) (type : AttributeType) (flag : Nat) : Option (AttrInfo × String) :=
  match mdbAttrMask mdb type.ad with
  | some ai => if ai.indexmask &&& flag = 0 then some (ai, type.cname) else none
  | none => none

/-- The last loop of `mdb_index_mask`: see if supertype defined mask for its subtypes. -/
def supMask (mdb : MdbInfo) : AttributeType → Option (AttrInfo × String)
  | .root cname => typeMask mdb (.root cname) SLAP_INDEX_NOSUBTYPES
  | .sub cname sup =>
    match typeMask mdb (.sub cname sup) SLAP_INDEX_NOSUBTYPES with
    | some r => some r
    | none => supMask mdb sup

/-- `mdb_index_mask`: the index a description is looked up in, and the name it is kept under. -/
def mdbIndexMask (mdb : MdbInfo) (desc : AttributeDescription) : Option (AttrInfo × String) :=
  match mdbAttrMask mdb desc with
  | some ai => some (ai, desc.cname)
  | none =>
    -- If there is a tagging option, did we ever index the base type?
    match if desc.isTagged && desc ≠ desc.type.ad then typeMask mdb desc.type SLAP_INDEX_NOTAGS else none with
    | some r => some r
    | none => supMask mdb desc.type

def presenceKey : Key := [0, 0, 0, 0, 0]

/-- What `mdb_index_param` fills in. -/
structure IndexParam where
  dbi : Nat
  mask : Nat
  /-- The name the index is kept under. For a presence lookup the source has `presence_key` here. -/
  pre : String
deriving DecidableEq

def indexTypeOf (schema : Schema) (desc : AttributeDescription) : FilterType → Nat
  | .present => SLAP_INDEX_PRESENT
  | .approx =>
    -- Use EQUALITY rule and index for approximate match
    if (schema.approx desc.type).isSome then SLAP_INDEX_APPROX else SLAP_INDEX_EQUALITY
  | .equality => SLAP_INDEX_EQUALITY
  | .substrings => SLAP_INDEX_SUBSTR

/-- `mdb_index_param`; `none` is `LDAP_INAPPROPRIATE_MATCHING`. -/
def mdbIndexParam (schema : Schema) (mdb : MdbInfo) (desc : AttributeDescription) (ftype : FilterType) :
    Option IndexParam :=
  match mdbIndexMask mdb desc with
  | none => none
  | some (ai, pre) =>
    if isSlapIndex ai.indexmask (indexTypeOf schema desc ftype) then some ⟨ai.dbi, ai.indexmask, pre⟩ else none

/-! ## Writing -/

structure KeyCall where
  dbi : Nat
  keys : List Key
deriving DecidableEq

/-- The key-function calls of `indexer`. The rules of an index's own type exist: the configuration
refuses an index without them. -/
def indexer (schema : Schema) (ai : AttrInfo) (ad : AttributeDescription) (atname : String)
    (vals : List Value) (mask : Nat) : List KeyCall :=
  let rule (r : Option MatchingRule) (type : Nat) (ftype : FilterType) : List KeyCall :=
    if isSlapIndex mask type then
      match r with
      | none => []
      | some mr =>
        match mr.indexer ftype mask atname vals with
        | some keys => [⟨ai.dbi, keys⟩]
        | none => []
    else []
  (if isSlapIndex mask SLAP_INDEX_PRESENT then [⟨ai.dbi, [presenceKey]⟩] else []) ++
    rule (schema.equality ad.type) SLAP_INDEX_EQUALITY .equality ++
    rule (schema.approx ad.type) SLAP_INDEX_APPROX .approx ++
    rule (schema.substr ad.type) SLAP_INDEX_SUBSTR .substrings

/-- The mask `index_at_values` uses for a regular update. -/
def AttrInfo.updateMask (ai : AttrInfo) : Nat := if ai.newmask ≠ 0 then ai.newmask else ai.indexmask

/-- `indexer` on the index of `desc`, if there is one. -/
def indexDesc (schema : Schema) (mdb : MdbInfo) (desc : AttributeDescription) (atname : String)
    (vals : List Value) : List KeyCall :=
  match mdbAttrMask mdb desc with
  | none => []
  | some ai => if ai.updateMask ≠ 0 then indexer schema ai desc atname vals ai.updateMask else []

def indexAtType (schema : Schema) (mdb : MdbInfo) (type : AttributeType) (tags : String)
    (vals : List Value) : List KeyCall :=
  indexDesc schema mdb type.ad type.cname vals ++
    (if tags = "" then []
    else match schema.adFindTags type tags with
      | none => []
      | some desc => indexDesc schema mdb desc desc.cname vals)

/-- `index_at_values`: the key-function calls of a regular update, the supertype's first. -/
def indexAtValues (schema : Schema) (mdb : MdbInfo) : AttributeType → String → List Value → List KeyCall
  | .root cname, tags, vals => indexAtType schema mdb (.root cname) tags vals
  | .sub cname sup, tags, vals =>
    indexAtValues schema mdb sup tags vals ++ indexAtType schema mdb (.sub cname sup) tags vals

def mdbIndexValues (schema : Schema) (mdb : MdbInfo) (desc : AttributeDescription) (vals : List Value)
    (id : Nat) : List KeyCall :=
  -- Never index ID 0
  if id = 0 then [] else indexAtValues schema mdb desc.type desc.tags vals

/-- `(dbi, key)` is among the keys of the values. -/
def Generates (schema : Schema) (mdb : MdbInfo) (desc : AttributeDescription) (vals : List Value)
    (dbi : Nat) (key : Key) : Prop :=
  ∃ call ∈ indexAtValues schema mdb desc.type desc.tags vals, call.dbi = dbi ∧ key ∈ call.keys

variable {mdb : MdbInfo} {r : AttrInfo × String}

theorem mdbAttrMask_some {desc : AttributeDescription} {ai : AttrInfo}
    (h : mdbAttrMask mdb desc = some ai) : ai ∈ mdb ∧ ai.desc = desc :=
  ⟨List.mem_of_find?_eq_some h, by simpa using List.find?_some h⟩

theorem typeMask_mem {type : AttributeType} {flag : Nat} (h : typeMask mdb type flag = some r) : r.1 ∈ mdb := by
  unfold typeMask at h
  split at h
  · next ai hai =>
    split at h
    · cases h
      exact (mdbAttrMask_some hai).1
    · cases h
  · cases h

theorem supMask_mem {type : AttributeType} (h : supMask mdb type = some r) : r.1 ∈ mdb := by
  induction type with
  | root cname => exact typeMask_mem h
  | sub cname sup ih =>
    unfold supMask at h
    split at h
    · next hr =>
      cases h
      exact typeMask_mem hr
    · exact ih h

theorem mdbIndexMask_mem {desc : AttributeDescription} (h : mdbIndexMask mdb desc = some r) : r.1 ∈ mdb := by
  unfold mdbIndexMask at h
  split at h
  · next ai hai =>
    cases h
    exact (mdbAttrMask_some hai).1
  · split at h
    · next hr =>
      cases h
      split at hr
      · exact typeMask_mem hr
      · cases hr
    · exact supMask_mem h

theorem mdbIndexParam_mem {schema : Schema} {desc : AttributeDescription} {ftype : FilterType}
    {p : IndexParam} (h : mdbIndexParam schema mdb desc ftype = some p) : ∃ ai ∈ mdb, p.dbi = ai.dbi := by
  unfold mdbIndexParam at h
  split at h
  · cases h
  · next ai pre hmask =>
    split at h
    · cases h
      exact ⟨ai, mdbIndexMask_mem hmask, rfl⟩
    · cases h

end BackMdb
end ReOpenLDAP
