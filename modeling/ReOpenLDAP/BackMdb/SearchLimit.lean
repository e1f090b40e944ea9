import ReOpenLDAP.BackMdb.FilterFailure

/-!
# BackMdb.SearchLimit

The choice of candidates in `mdb_search` and its unchecked limit.

A range lookup stops as soon as it holds as many IDs as the limit allows, and the search is refused
when its candidates are more than that. The two tests differ at the limit itself, and an AND between
them can bring the count down again: a list that was cut short then passes for a complete one.
-/

namespace ReOpenLDAP
namespace BackMdb

/-- The parts of a search request that choose its candidates. Aliases are not dereferenced. -/
structure SearchOp where
  filter : Filter
  /-- `LDAP_SCOPE_BASE` -/
  scopeBase : Bool
  /-- `base->e_id` -/
  base : Nat
  subentriesVisibility : Bool
  manageDSAit : Bool
  domainScope : Bool

def bytesOf (s : String) : Value := s.toList.map fun c => Fin.ofNat 256 c.toNat

/-- `oc_filter`: "objectClass Present" in this filter. The answers for the members of an AND or OR are
discarded. -/
def ocFilter (env : FilterEnv) : Filter → Bool
  | .present desc => desc = env.objectClass
  | _ => false

/-- The filter that `search_candidates` looks up. -/
def searchFilter (env : FilterEnv) (op : SearchOp) : Filter :=
  let f := if !ocFilter env op.filter && !op.subentriesVisibility && (!op.manageDSAit && !op.domainScope)
    -- match referral objects
    then .or (.cons (.equality env.objectClass (bytesOf "referral")) (.last op.filter))
    else op.filter
  if op.subentriesVisibility then .and (.cons (.equality env.objectClass (bytesOf "subentry")) (.last f)) else f

inductive SearchAnswer where
  /-- `LDAP_ADMINLIMIT_EXCEEDED` -/
  | adminLimitExceeded
  /-- The search goes on with these candidates, and ends with `LDAP_SUCCESS`. -/
  | examines (candidates : IDL)
deriving DecidableEq

/-- `mdb_search` up to the loop over the candidates; `entries` is `ms_entries` of id2entry. The code that
`search_candidates` returns is not looked at. -/
def mdbSearch (env : FilterEnv) (entries : Nat) (op : SearchOp) : SearchAnswer :=
  let candidates := if op.scopeBase then .list [op.base] else (mdbFilterCandidates env (searchFilter env op) .zero).2
  let ncand := if op.scopeBase then 1
    else if candidates.n = NOID then entries else candidates.n
  if candidates.isZero then .examines candidates
  else match env.unchecked with
    -- if not root and candidates exceed to-be-checked entries, abort
    | some limit => if limit < ncand then .adminLimitExceeded else .examines candidates
    | none => .examines candidates

def scanCount (env : FilterEnv) (desc : AttributeDescription) (value : Value) (ge : Bool) : Nat :=
  match inequalityScan env desc value ge with
  | some r => r.1.2.n
  | none => 0

mutual

def Filter.Exceeds (env : FilterEnv) (limit : Nat) : Filter → Prop
  | .ge desc value => hasOrderedIndex env desc = true ∧ limit < scanCount env desc value true
  | .le desc value => hasOrderedIndex env desc = true ∧ limit < scanCount env desc value false
  | .or fs => fs.Exceeds env limit
  | _ => False

def FilterList.Exceeds (env : FilterEnv) (limit : Nat) : FilterList → Prop
  | .last f => f.Exceeds env limit
  | .cons f fs => f.Exceeds env limit ∨ fs.Exceeds env limit

end

theorem FilterList.exceeds_iff (env : FilterEnv) (limit : Nat) (fs : FilterList) :
    fs.Exceeds env limit ↔ ∃ f ∈ fs.toList, f.Exceeds env limit := by
  fun_induction FilterList.toList fs with
  | case1 f => simp [FilterList.Exceeds]
  | case2 f fs ih => simp [FilterList.Exceeds, ih]

variable {env : FilterEnv} {leaf : Filter → Compare}

theorem clip_of_proper {c : Cands} (h : c.2.Proper) : clip env c = c := by
  obtain ⟨rc, ids⟩ := c
  cases ids with
  | list ids => rfl
  | range lo hi =>
    have hhi : hi ≠ NOID := by
      have := h.last_lt
      simp only [IDL.last] at this
      omega
    simp [clip, hhi]

theorem IDL.Proper.n_lt {a : IDL} (h : a.Proper) : a.n < NOID := by
  cases a with
  | list ids =>
    have h1 : MDB_IDL_UM_MAX < NOID := by decide
    exact lt_of_le_of_lt h.valid.2.2 h1
  | range lo hi =>
    have := h.last_lt
    simp only [IDL.n, IDL.last] at *
    omega

theorem orderingCandidates_exceeds (hwf : env.WellFormed) {limit : Nat}
    {desc : AttributeDescription} {value : Value} {ge : Bool} (hord : hasOrderedIndex env desc = true)
    (h : limit < scanCount env desc value ge) :
    (orderingCandidates env desc value ge).2.Proper ∧ limit < (orderingCandidates env desc value ge).2.n := by
  unfold scanCount at h
  unfold orderingCandidates inequalityCandidates
  rw [if_pos hord]
  cases hscan : inequalityScan env desc value ge with
  | none =>
    rw [hscan] at h
    exact absurd h (Nat.not_lt_zero limit)
  | some r =>
    rw [hscan] at h
    refine ⟨?_, h⟩
    unfold inequalityScan at hscan
    split at hscan
    · cases hscan
    · split at hscan
      · cases hscan
      · cases hscan
        exact inequalityLoop_proper (fun p hp => (scan_good hwf _ _ _ p hp).1) IDL.zero_proper

theorem filterCandidates_exceeds (hwf : env.WellFormed) (herr : env.NoErrors)
    (hent : env.HasEntries) {limit : Nat} (f : Filter) : f.Exceeds env limit →
      ∀ {ids : IDL}, ids.Proper → limit < (mdbFilterCandidates env f ids).2.n := by
  induction f using Filter.inductionOn with
  | item f hf =>
    intro hex ids _
    cases f with
    | ge desc value =>
      obtain ⟨hp, hn⟩ := orderingCandidates_exceeds hwf hex.1 hex.2
      rw [mdbFilterCandidates, clip_of_proper hp]
      exact hn
    | le desc value =>
      obtain ⟨hp, hn⟩ := orderingCandidates_exceeds hwf hex.1 hex.2
      rw [mdbFilterCandidates, clip_of_proper hp]
      exact hn
    | or fs => exact absurd hf id
    | _ => exact absurd hex id
  | not f _ => exact fun h => absurd h id
  | and fs _ => exact fun h => absurd h id
  | or fs ih =>
    intro hex ids hids
    obtain ⟨g, hg, hgex⟩ := (FilterList.exceeds_iff env limit fs).mp hex
    have hmembers : ∀ r ∈ memberResults env fs, r.2.2.Proper ∧ r.2.1 = none := fun r hr => by
      refine ⟨memberResults_proper hwf fs r hr, ?_⟩
      obtain ⟨g, -, rfl⟩ := List.mem_map.mp hr
      exact filterCandidates_rc hwf herr hent _ _
    have hscope : g.isScope = false := by
      cases g with
      | computed r => exact absurd hgex id
      | _ => rfl
    have hn := ((@listLoop_or_spec true _ _ hmembers hids).2 _ (List.mem_map.mpr ⟨g, hg, rfl⟩) hscope).1
    have hg' := ih g hg hgex IDL.zero_proper
    have hproper := @listLoop_proper .or true _ _ (memberResults_proper hwf fs) hids
    rw [mdbFilterCandidates, listCandidates_eq, clip_of_proper hproper]
    exact lt_of_lt_of_le hg' hn

/-! ## All or nothing -/

/-- The entry matches the request: its filter, and with the subentries control only subentries. -/
def SearchOp.Matches (env : FilterEnv) (op : SearchOp) (leaf : Filter → Compare) : Prop :=
  testFilter leaf op.filter = .true ∧
    (op.subentriesVisibility = true → leaf (.equality env.objectClass (bytesOf "subentry")) = .true)

theorem testFilterOr_last {f g : Filter} (h : testFilter leaf g = .true) : testFilter leaf (.or (.cons f (.last g))) = .true := by
  simp only [testFilter, testFilterOr, h]
  split <;> rfl

theorem testFilterAnd_pair {f g : Filter} (hf : testFilter leaf f = .true)
    (hg : testFilter leaf g = .true) : testFilter leaf (.and (.cons f (.last g))) = .true := by
  simp only [testFilter, testFilterAnd, hf, hg]

theorem SearchOp.Matches.rewritten {op : SearchOp} (h : op.Matches env leaf) : testFilter leaf (searchFilter env op) = .true := by
  obtain ⟨hf, hsub⟩ := h
  unfold searchFilter
  dsimp only
  have hinner : ∀ c : Bool, testFilter leaf (if c then .or (.cons
      (.equality env.objectClass (bytesOf "referral")) (.last op.filter)) else op.filter) = .true := by
    intro c
    cases c with
    | true => exact testFilterOr_last hf
    | false => exact hf
  split
  · next hs => exact testFilterAnd_pair (hsub hs) (hinner _)
  · exact hinner _

/-- `(uidNumber>=1)` with the ManageDsaIT control, below the base. -/
def numbersFromOne : SearchOp := ⟨.ge uidNumber [1], false, 1, false, true, false⟩

theorem searchFilter_numbersFromOne (env : FilterEnv) : searchFilter env numbersFromOne = .ge uidNumber [1] := by
  simp [searchFilter, numbersFromOne]

theorem scan_numbersFromOne (unchecked : Option Nat) :
    inequalityScan (twoEntries unchecked fun _ _ => none) uidNumber [1] true =
      some (inequalityLoop (twoEntries unchecked fun _ _ => none) 0 [([1], [1]), ([2], [2])] .zero) := by
  have hkeys : ∀ p, filterKeys ((twoEntries unchecked fun _ _ => none).schema.equality uidNumber.type) .equality p
      (.value [1]) = some [[1]] := fun p => by simp [filterKeys, twoEntries, valueRule]
  simp only [inequalityScan, twoEntries_indexParam unchecked (fun _ _ => none) .equality (.inr rfl), hkeys]
  rfl

theorem numbersFromOne_two : testFilter (leafOf 2) numbersFromOne.filter = .true := by
  have hle : ([1] : Value) ≤ [2] := by decide
  simp [numbersFromOne, testFilter, leafOf, hle]

end BackMdb
end ReOpenLDAP
