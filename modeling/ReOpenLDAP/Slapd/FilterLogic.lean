import ReOpenLDAP.Slapd.GetFilter

/-!
# Slapd.FilterLogic

Filters as three-valued logic.

* `filter_three_valued` — then the filter that is built evaluates to that value.
-/

namespace ReOpenLDAP
namespace Slapd

open List Option

open BackMdb (Byte Value Compare)

inductive Truth where
  | false
  | undefined
  | true
deriving DecidableEq

namespace Truth

def not : Truth → Truth
  | false => true
  | undefined => undefined
  | true => false

def and : Truth → Truth → Truth
  | false, _ => false
  | _, false => false
  | true, true => true
  | _, _ => undefined

def or : Truth → Truth → Truth
  | true, _ => true
  | _, true => true
  | false, false => false
  | _, _ => undefined

@[simp] theorem true_and (x : Truth) : true.and x = x := by cases x <;> rfl

@[simp] theorem false_and (x : Truth) : false.and x = false := by cases x <;> rfl

@[simp] theorem undefined_and (x : Truth) : undefined.and (undefined.and x) = undefined.and x := by cases x <;> rfl

@[simp] theorem true_or (x : Truth) : true.or x = true := by cases x <;> rfl

@[simp] theorem false_or (x : Truth) : false.or x = x := by cases x <;> rfl

@[simp] theorem undefined_or (x : Truth) : undefined.or (undefined.or x) = undefined.or x := by cases x <;> rfl

end Truth

def truth : Compare → Truth
  | .true => .true
  | .false => .false
  | _ => .undefined

/-- The tags that `get_filter` knows. -/
def filterTags : List Nat :=
  [LDAP_FILTER_AND, LDAP_FILTER_OR, LDAP_FILTER_NOT, LDAP_FILTER_EQUALITY, LDAP_FILTER_SUBSTRINGS, LDAP_FILTER_GE, LDAP_FILTER_LE,
    LDAP_FILTER_PRESENT, LDAP_FILTER_APPROX, LDAP_FILTER_EXT]

mutual

/-- A filter of a search request. A substrings item has components with any tags, an unknown choice a tag that is no filter's. -/
inductive FilterTree where
  | and (ts : FilterTrees)
  | or (ts : FilterTrees)
  | not (t : FilterTree)
  | ava (choice : AvaChoice) (type value : Value)
  | substrings (type : Value) (components : Elements Value)
  | present (type : Value)
  | ext (rule type : Option Value) (value : Value) (dnattrs : Option Byte)
  | unknownPrim (tag : Nat) (hunknown : tag ∉ filterTags) (content : Value)
  | unknownCons (tag : Nat) (hunknown : tag ∉ filterTags) (content : Elements Value)

inductive FilterTrees where
  | nil
  | cons (t : FilterTree) (ts : FilterTrees)

end

def optionalElement (tag : Nat) (v : Option Value) (rest : Elements Value) : Elements Value :=
  match v with
  | some v => .prim tag v rest
  | none => rest

def AvaChoice.tag : AvaChoice → Nat
  | .equality => LDAP_FILTER_EQUALITY
  | .ge => LDAP_FILTER_GE
  | .le => LDAP_FILTER_LE
  | .approx => LDAP_FILTER_APPROX

mutual

def FilterTree.put : FilterTree → Elements Value → Elements Value
  | .and ts, rest => .cons LDAP_FILTER_AND ts.elements rest
  | .or ts, rest => .cons LDAP_FILTER_OR ts.elements rest
  | .not t, rest => .cons LDAP_FILTER_NOT (t.put .nil) rest
  | .ava choice type value, rest => .cons choice.tag (.prim 0x04 type (.prim 0x04 value .nil)) rest
  | .substrings type components, rest => .cons LDAP_FILTER_SUBSTRINGS (.prim 0x04 type (.cons 0x30 components .nil)) rest
  | .present type, rest => .prim LDAP_FILTER_PRESENT type rest
  | .ext rule type value dnattrs, rest =>
    .cons LDAP_FILTER_EXT
      (optionalElement LDAP_FILTER_EXT_OID rule (optionalElement LDAP_FILTER_EXT_TYPE type
        (.prim LDAP_FILTER_EXT_VALUE value (optionalElement LDAP_FILTER_EXT_DNATTRS (dnattrs.map fun b => [b]) .nil)))) rest
  | .unknownPrim tag _ content, rest => .prim tag content rest
  | .unknownCons tag _ content, rest => .cons tag content rest

def FilterTrees.elements : FilterTrees → Elements Value
  | .nil => .nil
  | .cons t ts => t.put ts.elements

end

variable (ctx : FilterContext) (leaf : Filter → Compare)

/-- What `get_ssa` makes of a substrings item, and what it leaves of the item. -/
def ssaRead (type : Value) (components : Elements Value) : Filter × Elements Value :=
  match ssaDesc ctx type with
  | none => (.computed .undefined, .cons 0x30 components .nil)
  | some (ad, undefined) => ssaLoop ctx ad 0 ⟨none, [], none, undefined || !ctx.substr ad, false⟩ components

def FilterTree.item : FilterTree → Filter
  | .ava choice type value => avaItem ctx choice type value
  | .substrings type components => (ssaRead ctx type components).1
  | .present type => presentItem ctx type
  | .ext rule type value dnattrs => mraItem ctx rule type value (dnattrs.any (· ≠ 0))
  | _ => .computed .undefined

mutual

/-- The value of a filter, when the items evaluate as `test_filter` evaluates them. -/
def FilterTree.value : FilterTree → Truth
  | .and ts => ts.andValue
  | .or ts => ts.orValue
  | .not t => t.value.not
  | t => truth (testFilter leaf (t.item ctx))

def FilterTrees.andValue : FilterTrees → Truth
  | .nil => .true
  | .cons t ts => t.value.and ts.andValue

def FilterTrees.orValue : FilterTrees → Truth
  | .nil => .false
  | .cons t ts => t.value.or ts.orValue

end

/-- Elements that `get_filter` passes over. -/
def Passed : Elements Value → Prop
  | .nil => True
  | .prim tag _ rest => tag ∉ filterTags ∧ Passed rest
  | .cons tag _ rest => tag ∉ filterTags ∧ Passed rest

mutual

/-- The last thing that is read is an extensible match that may be followed by `dnAttributes`. -/
def FilterTree.endsExt : FilterTree → Bool
  | .and ts => ts.endsExt
  | .or ts => ts.endsExt
  | .not t => t.endsExt
  | .ext _ _ _ none => true
  | _ => false

def FilterTrees.endsExt : FilterTrees → Bool
  | .nil => false
  | .cons t .nil => t.endsExt
  | .cons _ ts => ts.endsExt

end

mutual

/-- In a list, what a rejected substrings item leaves of its components is passed over, and no unknown choice with the tag of
`dnAttributes` stands behind an extensible match without one. -/
def FilterTree.Alone (inList : Bool) : FilterTree → Prop
  | .and ts => ts.Alone
  | .or ts => ts.Alone
  | .not t => t.Alone inList
  | .substrings type components => inList = true → Passed (ssaRead ctx type components).2
  | _ => True

def FilterTrees.Alone : FilterTrees → Prop
  | .nil => True
  | .cons t ts =>
    t.Alone true ∧ ts.Alone ∧ (t.endsExt = true → ts.elements.tag? ≠ some LDAP_FILTER_EXT_DNATTRS)

end

variable {ctx leaf}

variable {last tag n : Nat} {rest s left : Elements Value} {f : Filter} {fs : List Filter} {ts : FilterTrees}

theorem ssaLoop_prim (ad : BackMdb.AttributeDescription) (ssa : Ssa) (tag : Nat) (v : Value) (r : Elements Value)
    (h : last ≤ r.size) :
    ssaLoop ctx ad last ssa (.prim tag v r) =
      match ssaStep ctx ad ssa tag v with
      | some ssa => ssaLoop ctx ad last ssa r
      | none => (.computed .undefined, r) := by
  rw [ssaLoop]
  exact if_neg (by omega)

theorem ssaLoop_cons (ad : BackMdb.AttributeDescription) (ssa : Ssa) (tag : Nat) (c r : Elements Value) (h : last ≤ r.size) :
    ssaLoop ctx ad last ssa (.cons tag c r) =
      match ssaStep ctx ad ssa tag (ctx.raw c) with
      | some ssa => ssaLoop ctx ad last ssa r
      | none => (.computed .undefined, r) := by
  rw [ssaLoop]
  exact if_neg (by omega)

theorem ssaLoop_append (ad : BackMdb.AttributeDescription) (ssa : Ssa) (components rest : Elements Value) :
    ssaLoop ctx ad rest.size ssa (components.append rest) =
      ((ssaLoop ctx ad 0 ssa components).1, (ssaLoop ctx ad 0 ssa components).2.append rest) := by
  have hmore : ∀ r : Elements Value, rest.size ≤ (r.append rest).size := fun r => by simp
  induction components generalizing ssa with
  | nil => cases rest <;> simp [ssaLoop, Elements.size]
  | prim tag v r ih =>
    rw [Elements.append, ssaLoop_prim _ _ _ _ _ (hmore r), ssaLoop_prim _ _ _ _ _ (Nat.zero_le _)]
    cases ssaStep ctx ad ssa tag v with
    | none => rfl
    | some ssa => exact ih ssa
  | cons tag c r _ ih =>
    rw [Elements.append, ssaLoop_cons _ _ _ _ _ (hmore r), ssaLoop_cons _ _ _ _ _ (Nat.zero_le _)]
    cases ssaStep ctx ad ssa tag (ctx.raw c) with
    | none => rfl
    | some ssa => exact ih ssa

theorem ssaLoop_left (ad : BackMdb.AttributeDescription) (ssa : Ssa) (components : Elements Value) :
    (ssaLoop ctx ad 0 ssa components).2.size ≤ components.size ∧
      ((ssaLoop ctx ad 0 ssa components).2 ≠ .nil → (ssaLoop ctx ad 0 ssa components).1 = .computed .undefined) := by
  induction components generalizing ssa with
  | nil => exact ⟨Nat.le_refl _, fun h => absurd rfl h⟩
  | prim tag v r ih =>
    rw [ssaLoop_prim _ _ _ _ _ (Nat.zero_le _)]
    cases ssaStep ctx ad ssa tag v with
    | none => exact ⟨Nat.le_succ _, fun _ => rfl⟩
    | some ssa => exact ⟨(ih ssa).1.trans (Nat.le_succ _), (ih ssa).2⟩
  | cons tag c r _ ih =>
    have hlonger : r.size ≤ (Elements.cons tag c r).size := by
      simp only [Elements.size]
      omega
    rw [ssaLoop_cons _ _ _ _ _ (Nat.zero_le _)]
    cases ssaStep ctx ad ssa tag (ctx.raw c) with
    | none => exact ⟨hlonger, fun _ => rfl⟩
    | some ssa => exact ⟨(ih ssa).1.trans hlonger, (ih ssa).2⟩

theorem ssaRead_left (type : Value) (components : Elements Value) :
    (ssaRead ctx type components).2.size ≤ components.size + 1 ∧
      ((ssaRead ctx type components).2 ≠ .nil → (ssaRead ctx type components).1 = .computed .undefined) := by
  unfold ssaRead
  cases ssaDesc ctx type with
  | none => exact ⟨by simp [Elements.size], fun _ => rfl⟩
  | some d =>
    obtain ⟨hsize, hleft⟩ := ssaLoop_left d.1 ⟨none, [], none, d.2 || !ctx.substr d.1, false⟩ components
    exact ⟨hsize.trans (Nat.le_succ _), hleft⟩

theorem getSsa_put (type : Value) (components rest : Elements Value) :
    getSsa ctx ((FilterTree.substrings type components).put rest) =
      some ((ssaRead ctx type components).1, (ssaRead ctx type components).2.append rest) := by
  unfold getSsa ssaRead
  simp only [FilterTree.put, Elements.enter, Elements.append, bind_some, octets]
  cases ssaDesc ctx type with
  | none => rfl
  | some d =>
    obtain ⟨ad, undefined⟩ := d
    simp only [reduceCtorEq, if_false, map_some, ssaLoop_append]

theorem getAva_put (choice : AvaChoice) (type value : Value) (rest : Elements Value) :
    getAva ctx choice ((FilterTree.ava choice type value).put rest) = some (avaItem ctx choice type value, rest) := rfl

theorem optional_some {v : Option Value} (h : rest.tag? ≠ some tag) :
    optional ctx tag (optionalElement tag v rest) = some (v, rest) := by
  cases v with
  | some v => simp [optional, optionalElement, Elements.tag?, octets]
  | none => simp [optional, optionalElement, h]

theorem tag?_optionalElement_ne {tag' : Nat} {v : Option Value} (hne : tag ≠ tag')
    (h : rest.tag? ≠ some tag') : (optionalElement tag v rest).tag? ≠ some tag' := by
  cases v with
  | some v => simpa [optionalElement, Elements.tag?] using hne
  | none => exact h

theorem optionalElement_append (tag : Nat) (v : Option Value) (s rest : Elements Value) :
    (optionalElement tag v s).append rest = optionalElement tag v (s.append rest) := by
  cases v <;> rfl

theorem getMra_put (rule type : Option Value) (value : Value) (dnattrs : Option Byte) (rest : Elements Value)
    (h : dnattrs = none → rest.tag? ≠ some LDAP_FILTER_EXT_DNATTRS) :
    getMra ctx ((FilterTree.ext rule type value dnattrs).put rest) =
      some (mraItem ctx rule type value (dnattrs.any (· ≠ 0)), rest) := by
  have hvalue : (Elements.prim LDAP_FILTER_EXT_VALUE value
      (optionalElement LDAP_FILTER_EXT_DNATTRS (dnattrs.map fun b => [b]) rest)).tag? = some LDAP_FILTER_EXT_VALUE := rfl
  have hdnattrs : optional ctx LDAP_FILTER_EXT_DNATTRS
      (optionalElement LDAP_FILTER_EXT_DNATTRS (dnattrs.map fun b => [b]) rest) = some (dnattrs.map fun b => [b], rest) := by
    cases dnattrs with
    | some b => simp [optional, optionalElement, Elements.tag?, octets]
    | none => exact optional_some (h rfl)
  unfold getMra
  simp only [FilterTree.put, Elements.enter, optionalElement_append, Elements.append, bind_some]
  rw [optional_some (tag?_optionalElement_ne (by decide) (by rw [hvalue]; decide)), bind_some,
    optional_some (by rw [hvalue]; decide), bind_some, if_pos hvalue]
  simp only [octets, bind_some, hdnattrs]
  cases dnattrs with
  | some b => simp [getBoolean]
  | none => simp [getBoolean]

theorem put_append (t : FilterTree) (s rest : Elements Value) : (t.put s).append rest = t.put (s.append rest) := by
  cases t <;> rfl

theorem size_put (t : FilterTree) (s : Elements Value) : (t.put s).size = (t.put .nil).size + s.size := by
  have h := put_append t .nil s
  rw [Elements.nil_append] at h
  rw [← h, Elements.size_append]

/-! ## What is read -/

def andTruth (leaf : Filter → Compare) (fs : List Filter) : Truth := (fs.map fun f => truth (testFilter leaf f)).foldr Truth.and .true

def orTruth (leaf : Filter → Compare) (fs : List Filter) : Truth := (fs.map fun f => truth (testFilter leaf f)).foldr Truth.or .false

theorem truth_and (f : Filter) (fs : List Filter) (rtn : Compare) (h : truth rtn ≠ .false) :
    truth (testFilterAnd leaf rtn (filterList f fs)) = (truth rtn).and (andTruth leaf (f :: fs)) := by
  induction fs generalizing f rtn with
  | nil =>
    simp only [filterList, testFilterAnd, andTruth, map_cons, map_nil, foldr_cons, foldr_nil]
    cases testFilter leaf f <;> cases rtn <;> simp_all [truth, Truth.and]
  | cons g fs ih =>
    have hrest : andTruth leaf (f :: g :: fs) = (truth (testFilter leaf f)).and (andTruth leaf (g :: fs)) := rfl
    rw [hrest, filterList, testFilterAnd]
    cases hf : testFilter leaf f with
    | false => cases rtn <;> simp_all [truth, Truth.and]
    | true =>
      rw [ih g rtn h]
      simp [truth]
    | _ =>
      rw [ih g _ (by simp [truth])]
      cases rtn <;> simp_all [truth]

theorem truth_or (f : Filter) (fs : List Filter) (rtn : Compare) (h : truth rtn ≠ .true) :
    truth (testFilterOr leaf rtn (filterList f fs)) = (truth rtn).or (orTruth leaf (f :: fs)) := by
  induction fs generalizing f rtn with
  | nil =>
    simp only [filterList, testFilterOr, orTruth, map_cons, map_nil, foldr_cons, foldr_nil]
    cases testFilter leaf f <;> cases rtn <;> simp_all [truth, Truth.or]
  | cons g fs ih =>
    have hrest : orTruth leaf (f :: g :: fs) = (truth (testFilter leaf f)).or (orTruth leaf (g :: fs)) := rfl
    rw [hrest, filterList, testFilterOr]
    cases hf : testFilter leaf f with
    | true => cases rtn <;> simp_all [truth, Truth.or]
    | false =>
      rw [ih g rtn h]
      simp [truth]
    | _ =>
      rw [ih g _ (by simp [truth])]
      cases rtn <;> simp_all [truth]

theorem truth_not (f : Filter) : truth (testFilter leaf (notFilter f)) = (truth (testFilter leaf f)).not := by
  cases f with
  | computed r => cases r <;> rfl
  | undefined => rfl
  | _ =>
    simp only [notFilter, testFilter]
    split <;> simp_all [truth, Truth.not]

def width : Elements Value → Nat
  | .nil => 0
  | .prim _ _ rest => width rest + 1
  | .cons _ _ rest => width rest + 1

theorem width_le (s : Elements Value) : width s ≤ s.size := by
  induction s with
  | nil => exact Nat.le_refl _
  | prim _ _ _ ih => exact Nat.succ_le_succ ih
  | cons _ _ _ _ ih =>
    simp only [width, Elements.size]
    omega

theorem getFilterN_unknown (htag : s.tag? = some tag) (hskip : s.skip = some rest)
    (hunknown : tag ∉ filterTags) : getFilterN ctx (n + 1) s = some (.computed .undefined, rest) := by
  simp only [filterTags, mem_cons, not_mem_nil, or_false, not_or] at hunknown
  simp [getFilterN, htag, hskip, hunknown]

theorem getFilterListN_step (hmore : last < s.size) (hf : getFilterN ctx n s = some (f, rest)) :
    getFilterListN ctx (n + 1) last s = (getFilterListN ctx n last rest).map fun fs => (f :: fs.1, fs.2) := by
  rw [getFilterListN, if_neg (by omega), hf]
  rfl

theorem getFilterListN_passed (hpassed : Passed left) (hlast : last ≤ s.size) (hn : 0 < n) :
    getFilterListN ctx (n + width left) last (left.append s) =
      (getFilterListN ctx n last s).map fun r => (List.replicate (width left) (.computed .undefined) ++ r.1, r.2) := by
  have hstep : ∀ (e r : Elements Value) (tag : Nat), e.tag? = some tag → e.skip = some (r.append s) → tag ∉ filterTags →
      last < e.size → getFilterListN ctx (n + width r) last (r.append s) =
        (getFilterListN ctx n last s).map (fun l => (List.replicate (width r) (.computed .undefined) ++ l.1, l.2)) →
      getFilterListN ctx (n + (width r + 1)) last e =
        (getFilterListN ctx n last s).map fun l => (List.replicate (width r + 1) (.computed .undefined) ++ l.1, l.2) := by
    intro e r tag htag hskip hunknown hmore ih
    obtain ⟨m, rfl⟩ : ∃ m, n = m + 1 := ⟨n - 1, by omega⟩
    have hread : getFilterN ctx (m + 1 + width r) e = some (.computed .undefined, r.append s) := by
      rw [show m + 1 + width r = m + width r + 1 by omega]
      exact getFilterN_unknown htag hskip hunknown
    rw [← Nat.add_assoc, getFilterListN_step hmore hread, ih, Option.map_map]
    rfl
  induction left with
  | nil => simp [width]
  | prim tag v r ih =>
    refine hstep _ r tag rfl rfl hpassed.1 ?_ (ih hpassed.2)
    simp only [Elements.size, Elements.size_append]
    omega
  | cons tag c r _ ih =>
    refine hstep _ r tag rfl rfl hpassed.1 ?_ (ih hpassed.2)
    simp only [Elements.append, Elements.size, Elements.size_append]
    omega

/-- What `get_filter` makes of a tree: a filter with its value, and what is left of an item that is Undefined. -/
structure Reads (ctx : FilterContext) (leaf : Filter → Compare) (t : FilterTree) (f : Filter) (left : Elements Value) : Prop where
  value : truth (testFilter leaf f) = t.value ctx leaf
  rejected : left ≠ .nil → t.value ctx leaf = .undefined
  size : left.size < (t.put .nil).size
  read : ∀ (rest : Elements Value) (n : Nat), (t.endsExt = true → rest.tag? ≠ some LDAP_FILTER_EXT_DNATTRS) →
    2 * (t.put .nil).size ≤ n → getFilterN ctx n (t.put rest) = some (f, left.append rest)

/-- What `get_filter_list` makes of the members of a list. -/
structure ReadsAll (ctx : FilterContext) (leaf : Filter → Compare) (ts : FilterTrees) (fs : List Filter) : Prop where
  and : andTruth leaf fs = ts.andValue ctx leaf
  or : orTruth leaf fs = ts.orValue ctx leaf
  read : ∀ (rest : Elements Value) (n : Nat), (ts.endsExt = true → rest.tag? ≠ some LDAP_FILTER_EXT_DNATTRS) →
    2 * ts.elements.size + 1 ≤ n → getFilterListN ctx n rest.size (ts.elements.append rest) = some (fs, rest)

theorem reads_nil : ReadsAll ctx leaf .nil [] := by
  refine ⟨rfl, rfl, fun rest n _ hn => ?_⟩
  obtain ⟨m, rfl⟩ : ∃ m, n = m + 1 := ⟨n - 1, by omega⟩
  simp [getFilterListN, FilterTrees.elements]

@[simp] theorem andTruth_cons (f : Filter) (fs : List Filter) :
    andTruth leaf (f :: fs) = (truth (testFilter leaf f)).and (andTruth leaf fs) := rfl

@[simp] theorem orTruth_cons (f : Filter) (fs : List Filter) :
    orTruth leaf (f :: fs) = (truth (testFilter leaf f)).or (orTruth leaf fs) := rfl

@[simp] theorem truth_constant : truth (testFilter leaf (.computed .undefined)) = .undefined := rfl

theorem undefined_and_passed (w : Nat) (fs : List Filter) :
    Truth.undefined.and (andTruth leaf (List.replicate w (.computed .undefined) ++ fs)) = Truth.undefined.and (andTruth leaf fs) := by
  induction w with
  | zero => rfl
  | succ w ih => simpa [replicate_succ] using ih

theorem undefined_or_passed (w : Nat) (fs : List Filter) :
    Truth.undefined.or (orTruth leaf (List.replicate w (.computed .undefined) ++ fs)) = Truth.undefined.or (orTruth leaf fs) := by
  induction w with
  | zero => rfl
  | succ w ih => simpa [replicate_succ] using ih

theorem andTruth_left {t : FilterTree} (fs : List Filter) (h : Reads ctx leaf t f left) :
    andTruth leaf (f :: (List.replicate (width left) (.computed .undefined) ++ fs)) = (t.value ctx leaf).and (andTruth leaf fs) := by
  rw [andTruth_cons, h.value]
  by_cases hleft : left = .nil
  · simp [hleft, width]
  · rw [h.rejected hleft, undefined_and_passed]

theorem orTruth_left {t : FilterTree} (fs : List Filter) (h : Reads ctx leaf t f left) :
    orTruth leaf (f :: (List.replicate (width left) (.computed .undefined) ++ fs)) = (t.value ctx leaf).or (orTruth leaf fs) := by
  rw [orTruth_cons, h.value]
  by_cases hleft : left = .nil
  · simp [hleft, width]
  · rw [h.rejected hleft, undefined_or_passed]

theorem Reads.item {t : FilterTree} (hvalue : truth (testFilter leaf (t.item ctx)) = t.value ctx leaf)
    (hsize : 0 < (t.put .nil).size)
    (hread : ∀ (rest : Elements Value) (n : Nat), (t.endsExt = true → rest.tag? ≠ some LDAP_FILTER_EXT_DNATTRS) →
      getFilterN ctx (n + 1) (t.put rest) = some (t.item ctx, rest)) : Reads ctx leaf t (t.item ctx) .nil := by
  refine ⟨hvalue, fun h => absurd rfl h, hsize, fun rest n hext hn => ?_⟩
  obtain ⟨m, rfl⟩ : ∃ m, n = m + 1 := ⟨n - 1, by omega⟩
  exact hread rest m hext

theorem reads_ava (choice : AvaChoice) (type value : Value) :
    Reads ctx leaf (.ava choice type value) (avaItem ctx choice type value) .nil := by
  refine Reads.item (t := .ava choice type value) rfl (by simp [FilterTree.put, Elements.size]) fun rest n _ => ?_
  cases choice <;> exact getAva_put _ type value rest

theorem reads_present (type : Value) : Reads ctx leaf (.present type) (presentItem ctx type) .nil :=
  Reads.item (t := .present type) rfl (by simp [FilterTree.put, Elements.size]) fun _ _ _ => rfl

theorem reads_ext (rule type : Option Value) (value : Value) (dnattrs : Option Byte) :
    Reads ctx leaf (.ext rule type value dnattrs) (mraItem ctx rule type value (dnattrs.any (· ≠ 0))) .nil := by
  refine Reads.item (t := .ext rule type value dnattrs) rfl (by simp [FilterTree.put, Elements.size]) fun rest n hext => ?_
  refine getMra_put rule type value dnattrs rest fun hnone => hext ?_
  rw [hnone, FilterTree.endsExt]

theorem reads_unknownPrim (tag : Nat) (hunknown : tag ∉ filterTags) (content : Value) :
    Reads ctx leaf (.unknownPrim tag hunknown content) (.computed .undefined) .nil :=
  Reads.item (t := .unknownPrim tag hunknown content) rfl (by simp [FilterTree.put, Elements.size])
    fun _ _ _ => getFilterN_unknown rfl rfl hunknown

theorem reads_unknownCons (tag : Nat) (hunknown : tag ∉ filterTags) (content : Elements Value) :
    Reads ctx leaf (.unknownCons tag hunknown content) (.computed .undefined) .nil :=
  Reads.item (t := .unknownCons tag hunknown content) rfl (by simp [FilterTree.put, Elements.size])
    fun _ _ _ => getFilterN_unknown rfl rfl hunknown

theorem reads_substrings (type : Value) (components : Elements Value) :
    Reads ctx leaf (.substrings type components) (ssaRead ctx type components).1 (ssaRead ctx type components).2 := by
  obtain ⟨hsize, hleft⟩ := @ssaRead_left ctx type components
  refine ⟨rfl, fun h => ?_, ?_, fun rest n _ hn => ?_⟩
  · simp only [FilterTree.value, FilterTree.item, hleft h, truth_constant]
  · simp only [FilterTree.put, Elements.size]
    omega
  · obtain ⟨m, rfl⟩ : ∃ m, n = m + 1 := ⟨n - 1, by simp only [FilterTree.put, Elements.size] at hn; omega⟩
    exact getSsa_put type components rest

theorem reads_not {t : FilterTree} (h : Reads ctx leaf t f left) : Reads ctx leaf (.not t) (notFilter f) left := by
  refine ⟨?_, fun hleft => ?_, ?_, fun rest n hext hn => ?_⟩
  · rw [truth_not, h.value, FilterTree.value]
  · rw [FilterTree.value, h.rejected hleft, Truth.not]
  · have := h.size
    simp only [FilterTree.put, Elements.size]
    omega
  · simp only [FilterTree.put, Elements.size] at hn
    obtain ⟨m, rfl⟩ : ∃ m, n = m + 1 := ⟨n - 1, by omega⟩
    have hread : getFilterN ctx (m + 1) (.cons LDAP_FILTER_NOT (t.put .nil) rest) =
        (getFilterN ctx m ((t.put .nil).append rest)).map fun f => (notFilter f.1, f.2) := rfl
    rw [FilterTree.put, hread, put_append, Elements.nil_append, h.read rest m hext (by omega), map_some]

theorem getFilterN_and (ctx : FilterContext) (m : Nat) (ts : FilterTrees) (rest : Elements Value) :
    getFilterN ctx (m + 1) (.cons LDAP_FILTER_AND ts.elements rest) =
      (getFilterListN ctx m rest.size (ts.elements.append rest)).map fun l =>
        match l.1 with
        | [] => (.computed .true, l.2)
        | f :: fs => (.and (filterList f fs), l.2) := rfl

theorem getFilterN_or (ctx : FilterContext) (m : Nat) (ts : FilterTrees) (rest : Elements Value) :
    getFilterN ctx (m + 1) (.cons LDAP_FILTER_OR ts.elements rest) =
      (getFilterListN ctx m rest.size (ts.elements.append rest)).map fun l =>
        match l.1 with
        | [] => (.computed .false, l.2)
        | f :: fs => (.or (filterList f fs), l.2) := rfl

theorem reads_and (h : ReadsAll ctx leaf ts fs) : ∃ f, Reads ctx leaf (.and ts) f .nil := by
  refine ⟨match fs with | [] => .computed .true | f :: fs => .and (filterList f fs), ?_, fun h => absurd rfl h,
    by simp [FilterTree.put, Elements.size], fun rest n hext hn => ?_⟩
  · rw [FilterTree.value, ← h.and]
    cases fs with
    | nil => rfl
    | cons f fs =>
      have hand := @truth_and leaf f fs .true (by simp [truth])
      simpa [truth, testFilter] using hand
  · simp only [FilterTree.put, Elements.size] at hn
    obtain ⟨m, rfl⟩ : ∃ m, n = m + 1 := ⟨n - 1, by omega⟩
    rw [FilterTree.put, getFilterN_and, h.read rest m hext (by omega), map_some]
    cases fs <;> rfl

theorem reads_or (h : ReadsAll ctx leaf ts fs) : ∃ f, Reads ctx leaf (.or ts) f .nil := by
  refine ⟨match fs with | [] => .computed .false | f :: fs => .or (filterList f fs), ?_, fun h => absurd rfl h,
    by simp [FilterTree.put, Elements.size], fun rest n hext hn => ?_⟩
  · rw [FilterTree.value, ← h.or]
    cases fs with
    | nil => rfl
    | cons f fs =>
      have hor := @truth_or leaf f fs .false (by simp [truth])
      simpa [truth, testFilter] using hor
  · simp only [FilterTree.put, Elements.size] at hn
    obtain ⟨m, rfl⟩ : ∃ m, n = m + 1 := ⟨n - 1, by omega⟩
    rw [FilterTree.put, getFilterN_or, h.read rest m hext (by omega), map_some]
    cases fs <;> rfl

theorem reads_cons {t : FilterTree} (h : Reads ctx leaf t f left) (hs : ReadsAll ctx leaf ts fs) (hpassed : Passed left)
    (halone : t.endsExt = true → ts.elements.tag? ≠ some LDAP_FILTER_EXT_DNATTRS) :
    ReadsAll ctx leaf (.cons t ts) (f :: (List.replicate (width left) (.computed .undefined) ++ fs)) := by
  refine ⟨?_, ?_, fun rest n hext hn => ?_⟩
  · rw [andTruth_left fs h, hs.and, FilterTrees.andValue]
  · rw [orTruth_left fs h, hs.or, FilterTrees.orValue]
  · have hsize := h.size
    have hwidth := width_le left
    rw [FilterTrees.elements, size_put] at hn
    obtain ⟨m, rfl⟩ : ∃ m, n = m + 1 + width left + 1 := ⟨n - width left - 2, by omega⟩
    have hfirst : t.endsExt = true → (ts.elements.append rest).tag? ≠ some LDAP_FILTER_EXT_DNATTRS := by
      intro hends
      cases ts with
      | nil => exact hext hends
      | cons u us =>
        have := halone hends
        cases u <;> exact this
    have hrest : ts.endsExt = true → rest.tag? ≠ some LDAP_FILTER_EXT_DNATTRS := by
      intro hends
      cases ts with
      | nil => exact absurd hends (by simp [FilterTrees.endsExt])
      | cons u us => exact hext hends
    have hmore : rest.size < (t.put (ts.elements.append rest)).size := by
      rw [size_put, Elements.size_append]
      omega
    rw [FilterTrees.elements, put_append, getFilterListN_step hmore (h.read _ _ hfirst (by omega)),
      getFilterListN_passed hpassed (by simp) (by omega), hs.read rest _ hrest (by omega)]
    rfl

mutual

theorem exists_reads : ∀ (t : FilterTree) {inList : Bool}, t.Alone ctx inList →
    ∃ f left, Reads ctx leaf t f left ∧ (inList = true → Passed left)
  | .and ts, _, h =>
    let ⟨_, hs⟩ := exists_readsAll ts h
    let ⟨f, hf⟩ := reads_and hs
    ⟨f, .nil, hf, fun _ => trivial⟩
  | .or ts, _, h =>
    let ⟨_, hs⟩ := exists_readsAll ts h
    let ⟨f, hf⟩ := reads_or hs
    ⟨f, .nil, hf, fun _ => trivial⟩
  | .not t, _, h =>
    let ⟨f, left, hf, hpassed⟩ := exists_reads t h
    ⟨notFilter f, left, reads_not hf, hpassed⟩
  | .ava choice type value, _, _ => ⟨_, .nil, reads_ava choice type value, fun _ => trivial⟩
  | .substrings type components, _, h => ⟨_, _, reads_substrings type components, h⟩
  | .present type, _, _ => ⟨_, .nil, reads_present type, fun _ => trivial⟩
  | .ext rule type value dnattrs, _, _ => ⟨_, .nil, reads_ext rule type value dnattrs, fun _ => trivial⟩
  | .unknownPrim tag hunknown content, _, _ => ⟨_, .nil, reads_unknownPrim tag hunknown content, fun _ => trivial⟩
  | .unknownCons tag hunknown content, _, _ => ⟨_, .nil, reads_unknownCons tag hunknown content, fun _ => trivial⟩

theorem exists_readsAll : ∀ ts : FilterTrees, ts.Alone ctx → ∃ fs, ReadsAll ctx leaf ts fs
  | .nil, _ => ⟨[], reads_nil⟩
  | .cons t ts, ⟨ht, hts, halone⟩ =>
    let ⟨_, _, hf, hpassed⟩ := exists_reads t ht
    let ⟨_, hfs⟩ := exists_readsAll ts hts
    ⟨_, reads_cons hf hfs (hpassed rfl) halone⟩

end

/-- Every filter of which each part keeps to itself evaluates by the rules of three-valued logic. -/
theorem filter_three_valued (ctx : FilterContext) (leaf : Filter → Compare) (t : FilterTree) (rest : Elements Value)
    (halone : t.Alone ctx false) (hext : t.endsExt = true → rest.tag? ≠ some LDAP_FILTER_EXT_DNATTRS) :
    ∃ f left, getFilter ctx (t.put rest) = some (f, left) ∧ truth (testFilter leaf f) = t.value ctx leaf := by
  obtain ⟨f, left, hf, -⟩ := @exists_reads ctx leaf t false halone
  refine ⟨f, left.append rest, ?_, hf.value⟩
  refine hf.read rest _ hext ?_
  rw [size_put t rest]
  omega

def oneType : FilterContext where
  bv2ad _ := .ok (BackMdb.AttributeType.root "cn").ad
  bv2undefAd _ := .error LDAP_UNDEFINED_TYPE
  bv2tmpAd _ := (BackMdb.AttributeType.root "cn").ad
  substr _ := true
  validate _ _ v := .ok v
  mrBvfind _ := some .other
  extEquality _ := some .other
  mrUsable _ _ := true
  validateExt _ _ v := .ok v
  raw _ := []

/-- `cn` -/
def cnText : Value := [99, 110]

/-- An AND with the negation of an empty OR, an unknown choice, a rejected substrings item and an extensible match at its end. -/
def mixedTree : FilterTree :=
  .and (.cons (.not (.or .nil)) (.cons (.unknownPrim 0x8b (by decide) []) (.cons
    (.substrings cnText (.prim LDAP_SUBSTRING_INITIAL [] (.prim LDAP_SUBSTRING_FINAL [97] .nil)))
      (.cons (.ext none (some cnText) [97] none) .nil))))

theorem filter_three_valued_mixed :
    mixedTree.Alone oneType false ∧
      ∃ f left, getFilter oneType (mixedTree.put (.cons 0x30 .nil .nil)) = some (f, left) ∧
        truth (testFilter (fun _ => .false) f) = mixedTree.value oneType fun _ => .false := by
  have halone : mixedTree.Alone oneType false := by
    refine ⟨trivial, ⟨trivial, ⟨fun _ => ⟨by decide, trivial⟩, ⟨trivial, trivial, ?_⟩, ?_⟩, ?_⟩, ?_⟩ <;> decide
  exact ⟨halone, filter_three_valued oneType _ mixedTree _ halone (by decide)⟩

/-- An OR whose only member is rejected at its first component. The component behind that has the tag of PRESENT. -/
def leftComponent : FilterTree :=
  .or (.cons (.substrings cnText (.prim LDAP_SUBSTRING_INITIAL [] (.prim LDAP_FILTER_PRESENT cnText .nil))) .nil)

/-- An AND of an extensible match and an unknown choice with the tag of `dnAttributes`. -/
def takenElement : FilterTree :=
  .and (.cons (.ext (some cnText) none [97] none) (.cons (.unknownPrim LDAP_FILTER_EXT_DNATTRS (by decide) [0]) .nil))

/-- Both are Undefined, and the filters that are built of them are true. -/
theorem filter_not_three_valued :
    (∃ f, getFilter oneType (leftComponent.put .nil) = some (f, .nil) ∧ truth (testFilter (fun _ => .true) f) = .true ∧
      leftComponent.value oneType (fun _ => .true) = .undefined) ∧
    ∃ f, getFilter oneType (takenElement.put .nil) = some (f, .nil) ∧ truth (testFilter (fun _ => .true) f) = .true ∧
      takenElement.value oneType (fun _ => .true) = .undefined :=
  ⟨⟨_, rfl, rfl, rfl⟩, ⟨_, rfl, rfl, rfl⟩⟩

end Slapd
end ReOpenLDAP
