import ReOpenLDAP.BackMdb.FilterComplete

/-!
# BackMdb.FilterFailure

An AND some of whose members cannot be looked up.

`list_candidates` skips a member whose lookup fails, but it copies a member's list into `ids` only when
that member is the first of the list; every other one is intersected with what `ids` holds. All
callers pass an empty list there, so an AND whose first member fails (or is a precomputed scope) has
no candidates at all, whatever the others find.
-/

namespace ReOpenLDAP
namespace BackMdb

def Succeeds (env : FilterEnv) (f : Filter) : Prop :=
  f.isScope = false ∧ (mdbFilterCandidates env f .zero).1 = none

def Common (env : FilterEnv) (entries : Set Nat) (fs : FilterList) : Set Nat :=
  {x | (∀ f ∈ fs.toList, Succeeds env f → x ∈ (mdbFilterCandidates env f .zero).2.denote) ∧
    ((∃ f ∈ fs.toList, Succeeds env f) ∨ x ∈ entries)}

theorem listLoop_and_zero {rs : List (Bool × Cands)} : listLoop .and false rs .zero = (none, .zero) := by
  induction rs with
  | nil => rfl
  | cons r rest ih =>
    obtain ⟨scope, rc, save⟩ := r
    rw [listLoop]
    cases scope with
    | true => exact ih
    | false =>
      cases rc with
      | some rc => exact ih
      | none => rfl

theorem listCandidates_of_head_fails {env : FilterEnv} {fs : FilterList} (h : ¬ Succeeds env fs.head) :
    listCandidates env .and true fs .zero = (none, .zero) := by
  have hrs : ∃ rest, memberResults env fs =
      (fs.head.isScope, mdbFilterCandidates env fs.head .zero) :: rest := by
    cases fs with
    | last f => exact ⟨_, rfl⟩
    | cons f fs => exact ⟨_, rfl⟩
  obtain ⟨rest, hrest⟩ := hrs
  rw [listCandidates_eq, hrest, listLoop]
  have hnext : listMember .and true fs.head.isScope (mdbFilterCandidates env fs.head .zero) .zero =
      .next .zero := by
    cases hs : fs.head.isScope with
    | true => rfl
    | false =>
      cases hc : mdbFilterCandidates env fs.head .zero with
      | mk rc save =>
        cases rc with
        | none => exact absurd ⟨hs, by rw [hc]⟩ h
        | some rc => rfl
  rw [hnext]
  exact listLoop_and_zero

/-- Failed members only widen an AND exactly when its first member is looked up with success, or
there is nothing to lose. -/
theorem and_widens_iff {env : FilterEnv} (hwf : env.WellFormed) (entries : Set Nat) (fs : FilterList) :
    (listCandidates env .and true fs .zero).1 = none ∧
    (Common env entries fs ⊆ (listCandidates env .and true fs .zero).2.denote ↔
      (Succeeds env fs.head ∨ Common env entries fs = ∅)) := by
  refine ⟨by rw [listCandidates_eq]; exact listLoop_and_rc, ?_, ?_⟩
  · intro hsub
    by_cases hhead : Succeeds env fs.head
    · exact .inl hhead
    · rw [listCandidates_of_head_fails hhead] at hsub
      exact .inr (Set.eq_empty_of_forall_notMem fun x hx => IDL.not_mem_zero (hsub hx))
  · intro h x hx
    rcases h with hhead | hempty
    · rw [listCandidates_eq]
      refine listLoop_and_mem (memberResults_proper hwf fs) IDL.zero_proper ?_ fun r hr hs hrc => ?_
      · refine ⟨(fs.head.isScope, mdbFilterCandidates env fs.head .zero), ?_, hhead.1, hhead.2⟩
        cases fs <;> rfl
      · obtain ⟨f, hf, rfl⟩ := List.mem_map.mp hr
        exact hx.1 f hf ⟨hs, hrc⟩
    · rw [hempty] at hx
      exact absurd hx (Set.notMem_empty x)

def brokenKey (_ : Nat) (key : Key) : Option Nat := if key = [1] then some 5 else none

theorem twoEntries_indexParam (unchecked : Option Nat) (readError : Nat → Key → Option Nat) (ftype : FilterType)
    (h : ftype = .present ∨ ftype = .equality) :
    mdbIndexParam (twoEntries unchecked readError).schema (twoEntries unchecked readError).mdb uidNumber ftype =
      some ⟨0, SLAP_INDEX_PRESENT ||| SLAP_INDEX_EQUALITY, uidNumber.cname⟩ := by
  rcases h with rfl | rfl <;>
    simp [mdbIndexParam, mdbIndexMask, mdbAttrMask, twoEntries, indexTypeOf, isSlapIndex, SLAP_INDEX_PRESENT,
      SLAP_INDEX_EQUALITY]

theorem brokenKey_present :
    mdbFilterCandidates (twoEntries none brokenKey) (.present uidNumber) .zero = (none, .list [1, 2]) := by
  have hread : mdbKeyRead (twoEntries none brokenKey) 0 presenceKey = .ok (.list [1, 2]) := by
    simp [mdbKeyRead, fetch, twoEntries, brokenKey, presenceKey, mdbIdlFetchKey]
  have hoc : uidNumber ≠ (twoEntries none brokenKey).objectClass := by
    simp [twoEntries, uidNumber, AttributeType.ad]
  simp [mdbFilterCandidates, presenceCandidates, hoc, twoEntries_indexParam none brokenKey .present, hread, clip]

theorem brokenKey_one :
    mdbFilterCandidates (twoEntries none brokenKey) (.equality uidNumber [1]) .zero =
      (some (.io 5), .range 1 2) := by
  have hread : mdbKeyRead (twoEntries none brokenKey) 0 [1] = .error (.io 5) := by
    simp [mdbKeyRead, fetch, twoEntries, brokenKey]
  have hdn : uidNumber ≠ (twoEntries none brokenKey).entryDN := by
    simp [twoEntries, uidNumber, AttributeType.ad]
  have hkeys : ∀ p, filterKeys ((twoEntries none brokenKey).schema.equality uidNumber.type) .equality p
      (.value [1]) = some [[1]] := fun p => by simp [filterKeys, twoEntries, valueRule]
  have heq : equalityCandidates (twoEntries none brokenKey) uidNumber [1] .zero = (some (.io 5), .all) := by
    simp [equalityCandidates, ruleCandidates, hdn, hkeys, keysLoop, hread,
      twoEntries_indexParam none brokenKey .equality]
  rw [mdbFilterCandidates, heq]
  rfl

/-- `(&(uidNumber=*)(uidNumber=1))` -/
def presentAndOne : FilterList := .cons (.present uidNumber) (.last (.equality uidNumber [1]))

theorem and_widens_brokenKey : Common (twoEntries none brokenKey) {1, 2} presentAndOne ⊆
    (listCandidates (twoEntries none brokenKey) .and true presentAndOne .zero).2.denote := by
  refine (and_widens_iff (twoEntries_wellFormed none brokenKey) {1, 2} presentAndOne).2.mpr (.inl ⟨rfl, ?_⟩)
  simp only [presentAndOne, FilterList.head, brokenKey_present]

/-- The same members in the other order: the entries that the second one finds are lost. -/
theorem and_first_member_fails : 1 ∈ Common (twoEntries none brokenKey) {1, 2}
      (.cons (.equality uidNumber [1]) (.last (.present uidNumber))) ∧
    1 ∉ (listCandidates (twoEntries none brokenKey) .and true
      (.cons (.equality uidNumber [1]) (.last (.present uidNumber))) .zero).2.denote := by
  have hfail : ¬ Succeeds (twoEntries none brokenKey) (.equality uidNumber [1]) := fun h => by
    simp [Succeeds, brokenKey_one] at h
  constructor
  · refine ⟨fun f hf hs => ?_, .inr (by simp)⟩
    simp only [FilterList.toList, List.mem_cons, List.not_mem_nil, or_false] at hf
    rcases hf with rfl | rfl
    · exact absurd hs hfail
    · simp [brokenKey_present]
  · rw [listCandidates_of_head_fails hfail]
    exact IDL.not_mem_zero

end BackMdb
end ReOpenLDAP
