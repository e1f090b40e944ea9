import ReOpenLDAP.BackMdb.Filter

/-!
# BackMdb.FilterLists

The lists that `mdb_filter_candidates` works with, whatever the filter matches and whether or not
reads fail.
-/

namespace ReOpenLDAP
namespace BackMdb

open List

/-- A valid list whose IDs stay clear of `NOID`. -/
structure IDL.Proper (a : IDL) : Prop where
  valid : a.Valid
  below : ∀ x ∈ a.denote, x + 1 < NOID

namespace IDL

theorem zero_proper : zero.Proper := ⟨zero_valid, by simp⟩

theorem singleton_proper {id : Nat} (h : id + 1 < NOID) : (list [id]).Proper :=
  ⟨⟨by simp [Increasing, DupSort.SortedBy], by simp; omega, by simp [MDB_IDL_UM_MAX]⟩, by simpa using h⟩

theorem Proper.last_lt {a : IDL} (h : a.Proper) : a.last + 1 < NOID := by
  cases hz : a.isZero with
  | true =>
    rw [eq_zero_of_isZero hz]
    decide
  | false => exact h.below _ (last_mem h.valid hz)

end IDL

theorem union_proper {a b : IDL} (ha : a.Proper) (hb : b.Proper) : (mdbIdlUnion a b).Proper := by
  refine ⟨(union_spec ha.valid hb.valid).1, fun x hx => ?_⟩
  have := union_le ha.valid hb.valid hx
  have := ha.last_lt
  have := hb.last_lt
  omega

theorem intersection_proper {a b : IDL} (ha : a.Proper) (hb : b.Proper) : (mdbIdlIntersection a b).Proper := by
  refine ⟨(intersection_spec ha.valid hb.valid).1, fun x hx => ?_⟩
  have := intersection_le ha.valid hb.valid hx
  have := ha.last_lt
  have := hb.last_lt
  omega

structure GoodData (ds : List Nat) : Prop where
  wf : WellFormed ds
  below : ∀ x ∈ ds, x + 1 < NOID

structure FilterEnv.WellFormed (env : FilterEnv) : Prop where
  sorted : ∀ dbi, (env.index dbi).Pairwise fun p q => p.1 < q.1
  data : ∀ dbi, ∀ p ∈ env.index dbi, GoodData p.2 ∧ p.2 ≠ []
  nextid : env.nextid + 1 < NOID
  last : ∀ l, env.lastEntry = .ok l → l + 1 < NOID
  dn2id : ∀ v id, env.mdbDn2id v = .ok id → id + 1 < NOID
  dn2sups : ∀ v, (env.mdbDn2sups v).Proper

theorem GoodData.nil : GoodData [] := ⟨.list DupSort.sortedBy_nil (by simp) (by simp), by simp⟩

theorem fetchKey_proper {ds : List Nat} {ids : IDL} (hds : GoodData ds) (h : mdbIdlFetchKey ds = .ok ids) :
    ids.Proper ∧ ids.denote = denote ds ∧ ids.isZero = false := by
  have hden : ids.denote = denote ds := by rw [denote, h]
  have hne : ds ≠ [] := by
    rintro rfl
    cases h
  rcases fetchKey_eq hds.wf hne with ⟨h0, heq⟩ | ⟨lo, hi, rfl, hlo, hlt, heq⟩
  · rw [heq] at h
    cases h
    cases hds.wf with
    | list hs _ hlen =>
      refine ⟨⟨⟨hs, fun x hx => ?_, hlen.trans (by decide)⟩, fun x hx => hds.below x hx⟩, hden, ?_⟩
      · have := hds.below x hx
        omega
      · simpa [IDL.isZero] using hne
    | range => simp at h0
  · rw [heq] at h
    cases h
    have hhi := hds.below hi (by simp)
    exact ⟨⟨⟨hlt.le, by omega⟩, fun x hx => by have := hx.2; omega⟩, hden, rfl⟩

theorem lookup_good {env : FilterEnv} (hwf : env.WellFormed) (dbi : Nat) (key : Key) :
    GoodData (((env.index dbi).lookup key).getD []) := by
  cases h : (env.index dbi).lookup key with
  | none => exact .nil
  | some ds =>
    obtain ⟨l₁, l₂, heq, -⟩ := List.lookup_eq_some_iff.mp h
    exact (hwf.data dbi (key, ds) (by simp [heq])).1

theorem keyRead_proper {env : FilterEnv} (hwf : env.WellFormed) {dbi : Nat} {key : Key} {ids : IDL}
    (h : mdbKeyRead env dbi key = .ok ids) :
    ids.Proper ∧ ids.denote = denote (((env.index dbi).lookup key).getD []) ∧ ids.isZero = false := by
  unfold mdbKeyRead fetch at h
  split at h
  · cases h
  · exact fetchKey_proper (lookup_good hwf dbi key) h

/-! ## Every list that leaves `mdb_filter_candidates` is proper -/

/-- What `ids` may hold before the open range is cut off. -/
def Unclipped (ids : IDL) : Prop := ids = .all ∨ ids.Proper

theorem presenceCandidates_unclipped {env : FilterEnv} (hwf : env.WellFormed) (desc : AttributeDescription) :
    Unclipped (presenceCandidates env desc).2 := by
  unfold presenceCandidates
  split
  · exact .inl rfl
  · split
    · exact .inl rfl
    · split
      · next h => exact .inr (keyRead_proper hwf h).1
      · exact .inr IDL.zero_proper
      · exact .inl rfl

theorem keysLoop_unclipped {env : FilterEnv} (hwf : env.WellFormed) {dbi : Nat} {first : Bool} {keys : List Key}
    {ids : IDL} (hids : if first then ids = .all else ids.Proper) :
    Unclipped (keysLoop env dbi first keys ids).2 := by
  induction keys generalizing first ids with
  | nil =>
    cases first with
    | true => exact .inl hids
    | false => exact .inr hids
  | cons key keys ih =>
    have hopen : Unclipped ids := by
      cases first with
      | true => exact .inl hids
      | false => exact .inr hids
    unfold keysLoop
    split
    · exact .inr IDL.zero_proper
    · exact hopen
    · next tmp htmp =>
      have hp := (keyRead_proper hwf htmp).1
      split
      · exact .inr IDL.zero_proper
      · have hnew : (if first then tmp else mdbIdlIntersection ids tmp).Proper := by
          cases first with
          | true => exact hp
          | false => exact intersection_proper hids hp
        dsimp only
        generalize (if first then tmp else mdbIdlIntersection ids tmp) = ids' at hnew ⊢
        cases ids'.isZero with
        | true => exact .inr hnew
        | false => exact ih hnew

theorem ruleCandidates_unclipped {env : FilterEnv} (hwf : env.WellFormed) (desc : AttributeDescription)
    (ftype : FilterType) (mr : Option MatchingRule) (a : Assertion) :
    Unclipped (ruleCandidates env desc ftype mr a).2 := by
  unfold ruleCandidates
  split
  · exact .inl rfl
  · split
    · exact .inl rfl
    · exact keysLoop_unclipped hwf (by rfl)

theorem equalityCandidates_unclipped {env : FilterEnv} (hwf : env.WellFormed) (desc : AttributeDescription)
    (value : Value) {ids : IDL} (hids : ids.Proper) : Unclipped (equalityCandidates env desc value ids).2 := by
  unfold equalityCandidates
  split
  · split
    · next h => exact .inr (IDL.singleton_proper (hwf.dn2id _ _ h))
    · exact .inr IDL.zero_proper
    · exact .inr hids
  · exact ruleCandidates_unclipped hwf _ _ _ _

theorem inequalityLoop_proper {env : FilterEnv} {dbi : Nat} {table : List (Key × List Nat)} {ids : IDL}
    (htab : ∀ p ∈ table, GoodData p.2) (hids : ids.Proper) : (inequalityLoop env dbi table ids).1.2.Proper := by
  induction table generalizing ids with
  | nil => exact hids
  | cons p rest ih =>
    obtain ⟨key, ds⟩ := p
    unfold inequalityLoop
    split
    · exact hids
    · exact hids
    · next tmp htmp =>
      split
      · exact hids
      · have hp : tmp.Proper := by
          unfold fetch at htmp
          split at htmp
          · cases htmp
          · exact (fetchKey_proper (htab _ mem_cons_self) htmp).1
        dsimp only
        cases limitReached env.unchecked (mdbIdlUnion ids tmp) with
        | true => exact union_proper hids hp
        | false => exact ih (fun p hp => htab p (mem_cons_of_mem _ hp)) (union_proper hids hp)

theorem scanKeys_sublist (ge : Bool) (key : Key) (table : List (Key × List Nat)) :
    (scanKeys ge key table).Sublist table := by
  unfold scanKeys
  split
  · exact List.filter_sublist.trans (dropWhile_sublist _)
  · exact (takeWhile_sublist _).trans filter_sublist

theorem orderingCandidates_unclipped {env : FilterEnv} (hwf : env.WellFormed) (desc : AttributeDescription)
    (value : Value) (ge : Bool) : Unclipped (orderingCandidates env desc value ge).2 := by
  unfold orderingCandidates inequalityCandidates inequalityScan
  split
  · split
    · exact .inl rfl
    · next r hr =>
      split at hr
      · cases hr
      · split at hr
        · cases hr
        · cases hr
          refine .inr (inequalityLoop_proper (fun p hp => ?_) IDL.zero_proper)
          exact (hwf.data _ p ((scanKeys_sublist _ _ _).subset hp)).1
  · exact presenceCandidates_unclipped hwf desc

theorem dn2idCandidates_unclipped {env : FilterEnv} (hwf : env.WellFormed) (v : Value) :
    Unclipped (match env.mdbDn2id v with
      | .ok id => ((none, .list [id]) : Cands)
      | .error _ => (none, .zero)).2 := by
  split
  · next h => exact .inr (IDL.singleton_proper (hwf.dn2id _ _ h))
  · exact .inr IDL.zero_proper

theorem extCandidates_unclipped {env : FilterEnv} (hwf : env.WellFormed) (mra : Mra) :
    Unclipped (extCandidates env mra).2 := by
  have hbase := dn2idCandidates_unclipped hwf
  unfold extCandidates
  dsimp only
  split
  · split
    · exact hbase _
    · split
      · exact .inr (hwf.dn2sups _)
      · exact .inl rfl
    · split
      · exact hbase _
      · exact .inl rfl
    · exact .inl rfl
  · exact .inl rfl

theorem clip_proper {env : FilterEnv} (hwf : env.WellFormed) {c : Cands} (h : Unclipped c.2) :
    (clip env c).2.Proper := by
  obtain ⟨rc, ids⟩ := c
  rcases h with h | h
  · have hrange : ∀ last, last ≠ 0 → last + 1 < NOID → (IDL.range 1 last).Proper := fun last h0 hlt =>
      ⟨⟨by omega, by decide⟩, fun x hx => by have := hx.2; omega⟩
    simp only at h
    subst h
    simp only [clip, IDL.all, if_true]
    by_cases hn : env.nextid ≠ 0
    · simp only [if_pos hn]
      exact hrange _ hn hwf.nextid
    · simp only [if_neg hn]
      cases hl : env.lastEntry with
      | error rc => exact IDL.zero_proper
      | ok last =>
        by_cases h0 : last ≠ 0
        · simp only [if_pos h0]
          exact hrange _ h0 (hwf.last _ hl)
        · simp only [if_neg h0]
          exact IDL.zero_proper
  · cases ids with
    | list ids => exact h
    | range lo hi =>
      have hhi : hi ≠ NOID := by
        have := h.last_lt
        simp only [IDL.last] at this
        omega
      simpa [clip, hhi] using h

/-- What `ids` holds when a member is done. -/
def ListStep.ids : ListStep → IDL
  | .stop c => c.2
  | .next ids => ids

theorem listMember_proper {ftype : ListType} {head scope : Bool} {r : Cands} {ids : IDL} (hr : r.2.Proper)
    (hids : ids.Proper) : (listMember ftype head scope r ids).ids.Proper := by
  unfold listMember
  cases scope with
  | true => exact hids
  | false =>
    obtain ⟨rc, save⟩ := r
    cases rc with
    | some rc => cases ftype <;> exact hids
    | none =>
      cases ftype with
      | and =>
        have hnew : (if head then save else mdbIdlIntersection ids save).Proper := by
          cases head with
          | true => exact hr
          | false => exact intersection_proper hids hr
        simp only [Bool.false_eq_true, if_false]
        generalize (if head then save else mdbIdlIntersection ids save) = ids' at hnew ⊢
        cases ids'.isZero <;> exact hnew
      | or =>
        cases head with
        | true => exact hr
        | false => exact union_proper hids hr

/-- The loop of `list_candidates` over the members' results, with a mark on precomputed scopes. -/
def listLoop (ftype : ListType) (head : Bool) : List (Bool × Cands) → IDL → Cands
  | [], ids => (none, ids)
  | (scope, r) :: rest, ids =>
    match listMember ftype head scope r ids with
    | .stop c => c
    | .next ids => listLoop ftype false rest ids

/-- The results `list_candidates` combines. -/
def memberResults (env : FilterEnv) (fs : FilterList) : List (Bool × Cands) :=
  fs.toList.map fun f => (f.isScope, mdbFilterCandidates env f .zero)

theorem listCandidates_eq (env : FilterEnv) (ftype : ListType) : ∀ (head : Bool) (fs : FilterList) (ids : IDL),
    listCandidates env ftype head fs ids = listLoop ftype head (memberResults env fs) ids
  | head, .last f, ids => by
    rw [listCandidates, memberResults, FilterList.toList, map_cons, map_nil, listLoop]
    cases listMember ftype head f.isScope (mdbFilterCandidates env f .zero) ids <;> rfl
  | head, .cons f fs, ids => by
    have ih := listCandidates_eq env ftype false fs
    rw [listCandidates, memberResults, FilterList.toList, map_cons, listLoop]
    cases listMember ftype head f.isScope (mdbFilterCandidates env f .zero) ids with
    | stop c => rfl
    | next ids' => exact ih ids'

theorem listLoop_proper {ftype : ListType} {head : Bool} {rs : List (Bool × Cands)} {ids : IDL}
    (hrs : ∀ r ∈ rs, r.2.2.Proper) (hids : ids.Proper) : (listLoop ftype head rs ids).2.Proper := by
  induction rs generalizing head ids with
  | nil => exact hids
  | cons r rest ih =>
    have hm : (listMember ftype head r.1 r.2 ids).ids.Proper :=
      listMember_proper (hrs _ mem_cons_self) hids
    rw [listLoop]
    cases h : listMember ftype head r.1 r.2 ids with
    | stop c => simpa [h, ListStep.ids] using hm
    | next ids' =>
      rw [h] at hm
      exact ih (fun r hr => hrs r (mem_cons_of_mem _ hr)) hm

theorem filterCandidates_proper {env : FilterEnv} (hwf : env.WellFormed) (f : Filter) :
    ∀ {ids : IDL}, ids.Proper → (mdbFilterCandidates env f ids).2.Proper := by
  induction f using Filter.inductionOn with
  | item f hf =>
    intro ids h
    cases f with
    | undefined => exact IDL.zero_proper
    | computed r =>
      cases r with
      | undefined => exact clip_proper hwf (.inr IDL.zero_proper)
      | false => exact clip_proper hwf (.inr IDL.zero_proper)
      | true => exact clip_proper hwf (.inl rfl)
      | success => exact clip_proper hwf (.inr h)
      | other code => exact clip_proper hwf (.inr h)
    | present desc => exact clip_proper hwf (presenceCandidates_unclipped hwf desc)
    | equality desc value => exact clip_proper hwf (equalityCandidates_unclipped hwf desc value h)
    | approx desc value => exact clip_proper hwf (ruleCandidates_unclipped hwf _ _ _ _)
    | substrings desc initial any final => exact clip_proper hwf (ruleCandidates_unclipped hwf _ _ _ _)
    | ge desc value => exact clip_proper hwf (orderingCandidates_unclipped hwf desc value true)
    | le desc value => exact clip_proper hwf (orderingCandidates_unclipped hwf desc value false)
    | not f => exact absurd hf id
    | and fs => exact absurd hf id
    | or fs => exact absurd hf id
    | ext mra => exact clip_proper hwf (extCandidates_unclipped hwf mra)
    | unknown => exact clip_proper hwf (.inl rfl)
  | not f _ => exact fun _ => clip_proper hwf (.inl rfl)
  | and fs ih =>
    intro ids h
    refine clip_proper hwf (.inr ?_)
    rw [listCandidates_eq]
    exact listLoop_proper (by simpa [memberResults] using fun f hf => ih f hf IDL.zero_proper) h
  | or fs ih =>
    intro ids h
    refine clip_proper hwf (.inr ?_)
    rw [listCandidates_eq]
    exact listLoop_proper (by simpa [memberResults] using fun f hf => ih f hf IDL.zero_proper) h

theorem memberResults_proper {env : FilterEnv} (hwf : env.WellFormed) (fs : FilterList) :
    ∀ r ∈ memberResults env fs, r.2.2.Proper := by
  intro r hr
  obtain ⟨f, -, rfl⟩ := List.mem_map.mp hr
  exact filterCandidates_proper hwf f IDL.zero_proper

/-- Nothing that every successful member holds is lost by an AND whose first member was looked up
with success. -/
theorem listLoop_and_mem {head : Bool} {rs : List (Bool × Cands)} {ids : IDL} {x : Nat}
    (hrs : ∀ r ∈ rs, r.2.2.Proper) (hids : ids.Proper)
    (hhead : if head then ∃ r, rs.head? = some r ∧ r.1 = false ∧ r.2.1 = none else x ∈ ids.denote)
    (hx : ∀ r ∈ rs, r.1 = false → r.2.1 = none → x ∈ r.2.2.denote) :
    x ∈ (listLoop .and head rs ids).2.denote := by
  induction rs generalizing head ids with
  | nil =>
    cases head with
    | true => simp at hhead
    | false => exact hhead
  | cons r rest ih =>
    have hrest : ∀ r ∈ rest, r.2.2.Proper := fun r hr => hrs r (mem_cons_of_mem _ hr)
    have hxrest : ∀ r ∈ rest, r.1 = false → r.2.1 = none → x ∈ r.2.2.denote :=
      fun r hr => hx r (mem_cons_of_mem _ hr)
    have hr := hrs r mem_cons_self
    have hxr := hx r mem_cons_self
    obtain ⟨scope, rc, save⟩ := r
    rw [listLoop]
    by_cases hok : scope = false ∧ rc = none
    · obtain ⟨rfl, rfl⟩ := hok
      have hmem : x ∈ (if head then save else mdbIdlIntersection ids save).denote := by
        cases head with
        | true => exact hxr rfl rfl
        | false => exact (intersection_spec hids.valid hr.valid).2 x hhead (hxr rfl rfl)
      have hnew : (if head then save else mdbIdlIntersection ids save).Proper := by
        cases head with
        | true => exact hr
        | false => exact intersection_proper hids hr
      simp only [listMember, Bool.false_eq_true, if_false, IDL.not_isZero hmem]
      exact ih hrest hnew hmem hxrest
    · -- a scope or a failed member leaves `ids` alone; it is not the first
      have hnext : listMember .and head scope (rc, save) ids = .next ids := by
        cases scope with
        | true => rfl
        | false =>
          cases rc with
          | none => simp at hok
          | some rc => rfl
      have hf : head = false := by
        cases head with
        | false => rfl
        | true =>
          obtain ⟨r, h1, h2, h3⟩ := hhead
          cases h1
          exact absurd ⟨h2, h3⟩ hok
      subst hf
      rw [hnext]
      exact ih hrest hids hhead hxrest

theorem listLoop_and_rc {head : Bool} {rs : List (Bool × Cands)} {ids : IDL} :
    (listLoop .and head rs ids).1 = none := by
  induction rs generalizing head ids with
  | nil => rfl
  | cons r rest ih =>
    obtain ⟨scope, rc, save⟩ := r
    rw [listLoop]
    cases scope with
    | true => exact ih
    | false =>
      cases rc with
      | some rc => exact ih
      | none =>
        simp only [listMember, Bool.false_eq_true, if_false]
        cases (if head then save else mdbIdlIntersection ids save).isZero with
        | true => rfl
        | false => exact ih

theorem listLoop_or_rc {head : Bool} {rs : List (Bool × Cands)} {ids : IDL}
    (hrs : ∀ r ∈ rs, r.2.1 = none) : (listLoop .or head rs ids).1 = none := by
  induction rs generalizing head ids with
  | nil => rfl
  | cons r rest ih =>
    have hrest : ∀ r ∈ rest, r.2.1 = none := fun r hr => hrs r (mem_cons_of_mem _ hr)
    have hrc := hrs r mem_cons_self
    obtain ⟨scope, rc, save⟩ := r
    simp only at hrc
    subst hrc
    rw [listLoop]
    cases scope with
    | true => exact ih hrest
    | false => exact ih hrest

/-- An OR whose members all succeed holds what they hold, and what `ids` held when it started behind
its first member. -/
theorem listLoop_or_spec {head : Bool} {rs : List (Bool × Cands)} {ids : IDL}
    (hrs : ∀ r ∈ rs, r.2.2.Proper ∧ r.2.1 = none) (hids : ids.Proper) :
    (head = false → ids.n ≤ (listLoop .or head rs ids).2.n ∧ ids.denote ⊆ (listLoop .or head rs ids).2.denote) ∧
    ∀ r ∈ rs, r.1 = false → r.2.2.n ≤ (listLoop .or head rs ids).2.n ∧
      r.2.2.denote ⊆ (listLoop .or head rs ids).2.denote := by
  induction rs generalizing head ids with
  | nil => exact ⟨fun _ => ⟨le_rfl, subset_rfl⟩, by simp⟩
  | cons r rest ih =>
    have hrest : ∀ r ∈ rest, r.2.2.Proper ∧ r.2.1 = none := fun r hr => hrs r (mem_cons_of_mem _ hr)
    obtain ⟨hr, hrc⟩ := hrs r mem_cons_self
    obtain ⟨scope, rc, save⟩ := r
    simp only at hrc
    subst hrc
    rw [listLoop]
    cases scope with
    | true =>
      obtain ⟨h2, h3⟩ := ih hrest hids
      refine ⟨fun _ => h2 rfl, fun r hr hs => ?_⟩
      rcases List.mem_cons.mp hr with rfl | hr
      · cases hs
      · exact h3 r hr hs
    | false =>
      have hnew : (if head then save else mdbIdlUnion ids save).Proper := by
        cases head with
        | true => exact hr
        | false => exact union_proper hids hr
      obtain ⟨h2, h3⟩ := ih hrest hnew
      obtain ⟨hn, hsub⟩ := h2 rfl
      have hu := union_spec hids.valid hr.valid
      refine ⟨fun hf => ?_, fun r hr' hs => ?_⟩
      · subst hf
        exact ⟨hu.2.2.1.trans hn, fun x hx => hsub (hu.2.1 x (.inl hx))⟩
      · rcases List.mem_cons.mp hr' with rfl | hr'
        · cases head with
          | true => exact ⟨hn, hsub⟩
          | false => exact ⟨hu.2.2.2.trans hn, fun x hx => hsub (hu.2.1 x (.inr hx))⟩
        · exact h3 r hr' hs

end BackMdb
end ReOpenLDAP
