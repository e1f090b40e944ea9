import ReOpenLDAP.BackMdb.FilterLists

/-!
# BackMdb.FilterComplete

Candidate selection loses no match: the list that `mdb_filter_candidates` returns for a filter holds
the ID of every entry on which the filter evaluates to true.
-/

namespace ReOpenLDAP
namespace BackMdb

open List

/-- Every read succeeds or reports `MDBX_NOTFOUND`. -/
structure FilterEnv.NoErrors (env : FilterEnv) : Prop where
  read : ∀ dbi key, env.readError dbi key = none
  dn2id : ∀ v rc, env.mdbDn2id v = .error rc → rc = .notfound
  last : ∀ rc, env.lastEntry = .error rc → rc = .notfound

def FilterEnv.HasEntries (env : FilterEnv) : Prop := env.nextid ≠ 0 ∨ ∃ l, env.lastEntry = .ok l

theorem keyRead_ok_or_notfound {env : FilterEnv} (hwf : env.WellFormed) (herr : env.NoErrors) (dbi : Nat)
    (key : Key) : (∃ ids, mdbKeyRead env dbi key = .ok ids) ∨ mdbKeyRead env dbi key = .error .notfound := by
  unfold mdbKeyRead fetch
  rw [herr.read]
  have hgood := lookup_good hwf dbi key
  generalize ((env.index dbi).lookup key).getD [] = ds at hgood ⊢
  by_cases hne : ds = []
  · subst hne
    exact .inr rfl
  · rcases fetchKey_eq hgood.wf hne with ⟨-, h⟩ | ⟨lo, hi, -, -, -, h⟩
    · exact .inl ⟨_, h⟩
    · exact .inl ⟨_, h⟩

theorem presenceCandidates_rc {env : FilterEnv} (hwf : env.WellFormed) (herr : env.NoErrors)
    (desc : AttributeDescription) : (presenceCandidates env desc).1 = none := by
  unfold presenceCandidates
  split
  · rfl
  · split
    · rfl
    · next p _ =>
      rcases keyRead_ok_or_notfound hwf herr p.dbi presenceKey with ⟨ids, h⟩ | h
      · rw [h]
      · rw [h]

variable {ids : IDL} {dbi : Nat} {b : Byte}

theorem keysLoop_rc {env : FilterEnv} (hwf : env.WellFormed) (herr : env.NoErrors) {first : Bool}
    {keys : List Key} : (keysLoop env dbi first keys ids).1 = none := by
  induction keys generalizing first ids with
  | nil => rfl
  | cons key keys ih =>
    unfold keysLoop
    rcases keyRead_ok_or_notfound hwf herr dbi key with ⟨tmp, h⟩ | h
    · rw [h]
      dsimp only
      cases tmp.isZero with
      | true => rfl
      | false =>
        simp only [Bool.false_eq_true, if_false]
        cases (if first then tmp else mdbIdlIntersection ids tmp).isZero with
        | true => rfl
        | false => exact ih
    · rw [h]

theorem ruleCandidates_rc {env : FilterEnv} (hwf : env.WellFormed) (herr : env.NoErrors)
    (desc : AttributeDescription) (ftype : FilterType) (mr : Option MatchingRule) (a : Assertion) :
    (ruleCandidates env desc ftype mr a).1 = none := by
  unfold ruleCandidates
  split
  · rfl
  · split
    · rfl
    · exact keysLoop_rc hwf herr

theorem equalityCandidates_rc {env : FilterEnv} (hwf : env.WellFormed) (herr : env.NoErrors)
    (desc : AttributeDescription) (value : Value) (ids : IDL) :
    (equalityCandidates env desc value ids).1 = none := by
  unfold equalityCandidates
  split
  · split
    · rfl
    · rfl
    · next rc hne h => exact absurd (herr.dn2id _ _ h) hne
  · exact ruleCandidates_rc hwf herr _ _ _ _

theorem inequalityLoop_cons {env : FilterEnv} (herr : env.NoErrors) {dbi : Nat} {p : Key × List Nat}
    {rest : List (Key × List Nat)} {ids : IDL} (hp : GoodData p.2 ∧ p.2 ≠ []) :
    ∃ tmp, mdbIdlFetchKey p.2 = .ok tmp ∧ inequalityLoop env dbi (p :: rest) ids =
      if limitReached env.unchecked (mdbIdlUnion ids tmp) then ((none, mdbIdlUnion ids tmp), !rest.isEmpty)
      else inequalityLoop env dbi rest (mdbIdlUnion ids tmp) := by
  obtain ⟨key, ds⟩ := p
  obtain ⟨tmp, htmp⟩ : ∃ tmp, mdbIdlFetchKey ds = .ok tmp := by
    rcases fetchKey_eq hp.1.wf hp.2 with ⟨-, h⟩ | ⟨lo, hi, -, -, -, h⟩
    · exact ⟨_, h⟩
    · exact ⟨_, h⟩
  refine ⟨tmp, htmp, ?_⟩
  have hz := (fetchKey_proper hp.1 htmp).2.2
  rw [inequalityLoop, herr.read]
  simp only [fetch, htmp, hz, Bool.false_eq_true, if_false]

theorem inequalityLoop_rc {env : FilterEnv} (herr : env.NoErrors) {table : List (Key × List Nat)} (htab : ∀ p ∈ table, GoodData p.2 ∧ p.2 ≠ []) : (inequalityLoop env dbi table ids).1.1 = none := by
  induction table generalizing ids with
  | nil => rfl
  | cons p rest ih =>
    obtain ⟨tmp, -, heq⟩ := inequalityLoop_cons herr (htab p mem_cons_self)
    rw [heq]
    split
    · rfl
    · exact ih fun p hp => htab p (mem_cons_of_mem _ hp)

theorem scan_good {env : FilterEnv} (hwf : env.WellFormed) (ge : Bool) (key : Key) (dbi : Nat) :
    ∀ p ∈ scanKeys ge key (env.index dbi), GoodData p.2 ∧ p.2 ≠ [] :=
  fun p hp => hwf.data dbi p ((scanKeys_sublist _ _ _).subset hp)

theorem orderingCandidates_rc {env : FilterEnv} (hwf : env.WellFormed) (herr : env.NoErrors)
    (desc : AttributeDescription) (value : Value) (ge : Bool) :
    (orderingCandidates env desc value ge).1 = none := by
  unfold orderingCandidates inequalityCandidates inequalityScan
  split
  · split
    · rfl
    · next r hr =>
      split at hr
      · cases hr
      · split at hr
        · cases hr
        · cases hr
          exact inequalityLoop_rc herr (scan_good hwf _ _ _)
  · exact presenceCandidates_rc hwf herr desc

theorem extCandidates_rc (env : FilterEnv) (mra : Mra) : (extCandidates env mra).1 = none := by
  unfold extCandidates
  dsimp only
  repeat' split
  all_goals rfl

theorem clip_rc {env : FilterEnv} (hent : env.HasEntries) {c : Cands} (h : c.1 = none) :
    (clip env c).1 = none := by
  obtain ⟨rc, ids⟩ := c
  simp only at h
  subst h
  cases ids with
  | list ids => rfl
  | range lo hi =>
    unfold clip
    dsimp only
    by_cases hhi : hi = NOID
    · rw [if_pos hhi]
      rcases hent with hn | ⟨l, hl⟩
      · simp only [if_pos hn]
      · by_cases hn : env.nextid ≠ 0
        · simp only [if_pos hn]
        · simp only [if_neg hn, hl]
          split <;> rfl
    · rw [if_neg hhi]

theorem filterCandidates_rc {env : FilterEnv} (hwf : env.WellFormed) (herr : env.NoErrors)
    (hent : env.HasEntries) (f : Filter) : ∀ ids, (mdbFilterCandidates env f ids).1 = none := by
  induction f using Filter.inductionOn with
  | item f hf =>
    intro ids
    cases f with
    | undefined => rfl
    | computed r => cases r <;> exact clip_rc hent rfl
    | present desc => exact clip_rc hent (presenceCandidates_rc hwf herr desc)
    | equality desc value => exact clip_rc hent (equalityCandidates_rc hwf herr desc value ids)
    | approx desc value => exact clip_rc hent (ruleCandidates_rc hwf herr _ _ _ _)
    | substrings desc initial any final => exact clip_rc hent (ruleCandidates_rc hwf herr _ _ _ _)
    | ge desc value => exact clip_rc hent (orderingCandidates_rc hwf herr desc value true)
    | le desc value => exact clip_rc hent (orderingCandidates_rc hwf herr desc value false)
    | not f => exact absurd hf id
    | and fs => exact absurd hf id
    | or fs => exact absurd hf id
    | ext mra => exact clip_rc hent (extCandidates_rc env mra)
    | unknown => exact clip_rc hent rfl
  | not f _ => exact fun _ => clip_rc hent rfl
  | and fs _ =>
    intro ids
    refine clip_rc hent ?_
    rw [listCandidates_eq]
    exact listLoop_and_rc
  | or fs ih =>
    intro ids
    refine clip_rc hent ?_
    rw [listCandidates_eq]
    refine listLoop_or_rc fun r hr => ?_
    obtain ⟨f, hf, rfl⟩ := List.mem_map.mp hr
    exact ih f hf _

structure Entry where
  id : Nat
  attrs : List (AttributeDescription × List Value)

/-- The entry has `(dbi, key)` among the keys that `index_at_values` computes for its values. -/
def Entry.Generates (env : FilterEnv) (e : Entry) (dbi : Nat) (key : Key) : Prop :=
  ∃ a ∈ e.attrs, BackMdb.Generates env.schema env.mdb a.1 a.2 dbi key

/-- The keys that the rule `mr` computes for an assertion are among the entry's. -/
def Entry.HasKeysOf (env : FilterEnv) (e : Entry) (desc : AttributeDescription) (ftype : FilterType)
    (mr : Option MatchingRule) (a : Assertion) : Prop :=
  ∀ p keys, mdbIndexParam env.schema env.mdb desc ftype = some p → filterKeys mr ftype p a = some keys →
    ∀ key ∈ keys, e.Generates env p.dbi key

def Entry.HasKeyBeyond (env : FilterEnv) (e : Entry) (desc : AttributeDescription) (value : Value) (ge : Bool) :
    Prop :=
  ∀ p keys, mdbIndexParam env.schema env.mdb desc .equality = some p →
    filterKeys (env.schema.equality desc.type) .equality p (.value value) = some keys →
    ∃ key, e.Generates env p.dbi key ∧ key.length = (keys.headD []).length ∧
      if ge then keys.headD [] ≤ key else key ≤ keys.headD []

/-- What a search relies on for an entry on which the items evaluate as `leaf` says: the entry's ID
is within bounds and under every key of its values, and an item that is true shows in the keys. -/
structure Indexed (env : FilterEnv) (e : Entry) (leaf : Filter → Compare) : Prop where
  pos : 0 < e.id
  nextid : env.nextid ≠ 0 → e.id ≤ env.nextid
  last : env.nextid = 0 → ∃ l, env.lastEntry = .ok l ∧ e.id ≤ l
  index : ∀ dbi key, e.Generates env dbi key → e.id ∈ denote (((env.index dbi).lookup key).getD [])
  present : ∀ desc p, leaf (.present desc) = .true →
    mdbIndexParam env.schema env.mdb desc .present = some p → e.Generates env p.dbi presenceKey
  ordering : ∀ desc value p, leaf (.ge desc value) = .true ∨ leaf (.le desc value) = .true →
    mdbIndexParam env.schema env.mdb desc .present = some p → e.Generates env p.dbi presenceKey
  equality : ∀ desc value, leaf (.equality desc value) = .true → desc ≠ env.entryDN →
    e.HasKeysOf env desc .equality (env.schema.equality desc.type) (.value value)
  entryDN : ∀ value, leaf (.equality env.entryDN value) = .true → env.mdbDn2id value = .ok e.id
  approx : ∀ desc value, leaf (.approx desc value) = .true →
    e.HasKeysOf env desc .approx (approxRule env.schema desc.type) (.value value)
  substrings : ∀ desc initial any final, leaf (.substrings desc initial any final) = .true →
    e.HasKeysOf env desc .substrings (env.schema.substr desc.type) (.sub initial any final)
  ge : ∀ desc value, leaf (.ge desc value) = .true → hasOrderedIndex env desc = true →
    e.HasKeyBeyond env desc value true
  le : ∀ desc value, leaf (.le desc value) = .true → hasOrderedIndex env desc = true →
    e.HasKeyBeyond env desc value false
  ext : ∀ mra : Mra, leaf (.ext mra) = .true → mra.desc = some env.entryDN →
    ((mra.rule = .distinguishedNameMatch ∨ mra.rule = .dnRelative) → env.mdbDn2id mra.value = .ok e.id) ∧
    (mra.rule = .dnSuperiorMatch → e.id ∈ (env.mdbDn2sups mra.value).denote)

/-! ## Which range lookups reach the end of their keys -/

def scanCut (env : FilterEnv) (desc : AttributeDescription) (value : Value) (ge : Bool) : Bool :=
  match inequalityScan env desc value ge with
  | some r => r.2
  | none => false

mutual

def Filter.Complete (env : FilterEnv) : Filter → Prop
  | .ge desc value => hasOrderedIndex env desc = true → scanCut env desc value true = false
  | .le desc value => hasOrderedIndex env desc = true → scanCut env desc value false = false
  | .and fs => fs.Complete env
  | .or fs => fs.Complete env
  | _ => True

def FilterList.Complete (env : FilterEnv) : FilterList → Prop
  | .last f => f.Complete env
  | .cons f fs => f.Complete env ∧ fs.Complete env

end

theorem FilterList.complete_iff (env : FilterEnv) (fs : FilterList) :
    fs.Complete env ↔ ∀ f ∈ fs.toList, f.Complete env := by
  fun_induction FilterList.toList fs with
  | case1 f => simp [FilterList.Complete]
  | case2 f fs ih => simp [FilterList.Complete, ih]

theorem inequalityLoop_not_cut {env : FilterEnv} (hlim : env.unchecked = none)
    {table : List (Key × List Nat)} : (inequalityLoop env dbi table ids).2 = false := by
  induction table generalizing ids with
  | nil => rfl
  | cons p rest ih =>
    unfold inequalityLoop
    repeat' split
    all_goals first | rfl | exact ih | skip
    simp_all [limitReached]

theorem complete_of_no_limit {env : FilterEnv} (hlim : env.unchecked = none) (f : Filter) : f.Complete env := by
  have hcut : ∀ desc value ge, scanCut env desc value ge = false := by
    intro desc value ge
    unfold scanCut inequalityScan
    split
    · next r hr =>
      split at hr
      · cases hr
      · split at hr
        · cases hr
        · cases hr
          exact inequalityLoop_not_cut hlim
    · rfl
  induction f using Filter.inductionOn with
  | item f hf =>
    cases f with
    | ge desc value => exact fun _ => hcut _ _ _
    | le desc value => exact fun _ => hcut _ _ _
    | and fs => exact absurd hf id
    | or fs => exact absurd hf id
    | _ => trivial
  | not f _ => trivial
  | and fs ih => exact (FilterList.complete_iff env fs).mpr ih
  | or fs ih => exact (FilterList.complete_iff env fs).mpr ih

section Matching

variable {env : FilterEnv} {e : Entry} {leaf : Filter → Compare}
variable {dbi : Nat} {desc : AttributeDescription} {ids : IDL}

theorem keyRead_mem (hwf : env.WellFormed) (herr : env.NoErrors) (hidx : Indexed env e leaf) {key : Key}
    (hgen : e.Generates env dbi key) : ∃ ids, mdbKeyRead env dbi key = .ok ids ∧ e.id ∈ ids.denote := by
  have hmem := hidx.index dbi key hgen
  rcases keyRead_ok_or_notfound hwf herr dbi key with ⟨ids, h⟩ | h
  · exact ⟨ids, h, (keyRead_proper hwf h).2.1 ▸ hmem⟩
  · unfold mdbKeyRead fetch at h
    rw [herr.read] at h
    simp only at h
    rw [denote, h] at hmem
    exact absurd hmem (Set.notMem_empty _)

theorem presenceCandidates_mem (hwf : env.WellFormed) (herr : env.NoErrors) (hidx : Indexed env e leaf) (hid : e.id ∈ IDL.all.denote)
    (hgen : ∀ p, mdbIndexParam env.schema env.mdb desc .present = some p → e.Generates env p.dbi presenceKey) :
    e.id ∈ (presenceCandidates env desc).2.denote := by
  unfold presenceCandidates
  split
  · exact hid
  · split
    · exact hid
    · next p hp =>
      obtain ⟨ids, h, hmem⟩ := keyRead_mem hwf herr hidx (hgen p hp)
      rw [h]
      exact hmem

theorem keysLoop_mem (hwf : env.WellFormed) (herr : env.NoErrors) (hidx : Indexed env e leaf)
    {first : Bool} {keys : List Key} (hids : first = false → ids.Proper)
    (hmem : e.id ∈ ids.denote) (hgen : ∀ key ∈ keys, e.Generates env dbi key) :
    e.id ∈ (keysLoop env dbi first keys ids).2.denote := by
  induction keys generalizing first ids with
  | nil => exact hmem
  | cons key keys ih =>
    obtain ⟨tmp, htmp, hx⟩ := keyRead_mem hwf herr hidx (hgen key mem_cons_self)
    have hp := (keyRead_proper hwf htmp).1
    have hnew : e.id ∈ (if first then tmp else mdbIdlIntersection ids tmp).denote := by
      cases first with
      | true => exact hx
      | false => exact (intersection_spec (hids rfl).valid hp.valid).2 _ hmem hx
    have hproper : (if first then tmp else mdbIdlIntersection ids tmp).Proper := by
      cases first with
      | true => exact hp
      | false => exact intersection_proper (hids rfl) hp
    unfold keysLoop
    rw [htmp]
    simp only [IDL.not_isZero hx, IDL.not_isZero hnew, Bool.false_eq_true, if_false]
    exact ih (fun _ => hproper) hnew fun key hkey => hgen key (mem_cons_of_mem _ hkey)

theorem ruleCandidates_mem (hwf : env.WellFormed) (herr : env.NoErrors) (hidx : Indexed env e leaf) {ftype : FilterType} {mr : Option MatchingRule} {a : Assertion}
    (hid : e.id ∈ IDL.all.denote) (hkeys : e.HasKeysOf env desc ftype mr a) :
    e.id ∈ (ruleCandidates env desc ftype mr a).2.denote := by
  unfold ruleCandidates
  split
  · exact hid
  · next p hp =>
    split
    · exact hid
    · next keys hk => exact keysLoop_mem hwf herr hidx (by simp) hid (hkeys p keys hp hk)

theorem equalityCandidates_mem (hwf : env.WellFormed) (herr : env.NoErrors) (hidx : Indexed env e leaf) {value : Value} (hid : e.id ∈ IDL.all.denote)
    (htrue : leaf (.equality desc value) = .true) : e.id ∈ (equalityCandidates env desc value ids).2.denote := by
  unfold equalityCandidates
  split
  · next hdn =>
    subst hdn
    rw [hidx.entryDN value htrue]
    exact mem_singleton_self _
  · next hdn => exact ruleCandidates_mem hwf herr hidx hid (hidx.equality desc value htrue hdn)

theorem inequalityLoop_mem (herr : env.NoErrors) {table : List (Key × List Nat)}
    {x : Nat} (htab : ∀ p ∈ table, GoodData p.2 ∧ p.2 ≠ []) (hids : ids.Proper)
    (hcut : (inequalityLoop env dbi table ids).2 = false)
    (hx : x ∈ ids.denote ∨ ∃ p ∈ table, x ∈ denote p.2) : x ∈ (inequalityLoop env dbi table ids).1.2.denote := by
  induction table generalizing ids with
  | nil => simpa [inequalityLoop] using hx
  | cons p rest ih =>
    have hp := htab p mem_cons_self
    obtain ⟨tmp, htmp, heq⟩ := @inequalityLoop_cons env herr dbi p rest ids hp
    obtain ⟨htp, hden, -⟩ := fetchKey_proper hp.1 htmp
    have hu := (union_spec hids.valid htp.valid).2.1 x
    have hx' : x ∈ (mdbIdlUnion ids tmp).denote ∨ ∃ p ∈ rest, x ∈ denote p.2 := by
      rcases hx with hx | ⟨q, hq, hx⟩
      · exact .inl (hu (.inl hx))
      · rcases List.mem_cons.mp hq with rfl | hq
        · exact .inl (hu (.inr (hden ▸ hx)))
        · exact .inr ⟨q, hq, hx⟩
    rw [heq] at hcut ⊢
    split at hcut
    · next hlim =>
      -- the limit was met at the last key
      rw [if_pos hlim]
      have hrest : rest = [] := by simpa using hcut
      subst hrest
      simpa using hx'
    · next hlim =>
      rw [if_neg hlim]
      exact ih (fun p hp => htab p (mem_cons_of_mem _ hp)) (union_proper hids htp) hcut hx'

theorem mem_dropWhile {α : Type*} {p : α → Bool} {l : List α} {x : α} (hx : x ∈ l) (hp : p x = false) :
    x ∈ l.dropWhile p := by
  induction l with
  | nil => cases hx
  | cons y ys ih =>
    rw [dropWhile_cons]
    split
    · next hy =>
      rcases List.mem_cons.mp hx with rfl | hx
      · simp [hp] at hy
      · exact ih hx
    · exact hx

theorem mem_scanKeys {ge : Bool} {key k : Key} {ds : List Nat} {table : List (Key × List Nat)}
    (hs : table.Pairwise fun p q => p.1 < q.1) (hmem : (k, ds) ∈ table) (hlen : k.length = key.length)
    (hside : if ge then key ≤ k else k ≤ key) : (k, ds) ∈ scanKeys ge key table := by
  unfold scanKeys
  cases ge with
  | true =>
    refine List.mem_filter.mpr ⟨mem_dropWhile hmem ?_, by simpa using hlen⟩
    simpa using hside
  | false =>
    have hfil := hs.filter fun p => p.1.length = key.length
    have hin : (k, ds) ∈ table.filter fun p => p.1.length = key.length :=
      List.mem_filter.mpr ⟨hmem, by simpa using hlen⟩
    simp only [Bool.false_eq_true, if_false] at hside ⊢
    generalize (table.filter fun p => p.1.length = key.length) = l at hfil hin
    induction l with
    | nil => cases hin
    | cons q qs ih =>
      obtain ⟨hq, hqs⟩ := List.pairwise_cons.mp hfil
      rw [takeWhile_cons]
      rcases List.mem_cons.mp hin with rfl | hin
      · simp [hside]
      · have hle : q.1 ≤ key := ((hq _ hin).le).trans hside
        simp only [hle, decide_true, if_true]
        exact mem_cons_of_mem _ (ih hqs hin)

theorem orderingCandidates_mem (hwf : env.WellFormed) (herr : env.NoErrors) (hidx : Indexed env e leaf) {value : Value} {ge : Bool} (hid : e.id ∈ IDL.all.denote)
    (htrue : leaf (.ge desc value) = .true ∨ leaf (.le desc value) = .true)
    (hbeyond : hasOrderedIndex env desc = true → e.HasKeyBeyond env desc value ge)
    (hcut : hasOrderedIndex env desc = true → scanCut env desc value ge = false) :
    e.id ∈ (orderingCandidates env desc value ge).2.denote := by
  unfold orderingCandidates
  split
  · next hord =>
    have hcut := hcut hord
    unfold inequalityCandidates
    unfold scanCut at hcut
    cases hscan : inequalityScan env desc value ge with
    | none => exact hid
    | some r =>
      rw [hscan] at hcut
      unfold inequalityScan at hscan
      split at hscan
      · cases hscan
      · next p hp =>
        split at hscan
        · cases hscan
        · next keys hk =>
          cases hscan
          obtain ⟨k, hgen, hlen, hside⟩ := hbeyond hord p keys hp hk
          have hden := hidx.index p.dbi k hgen
          refine inequalityLoop_mem herr (scan_good hwf _ _ _) IDL.zero_proper hcut (.inr ?_)
          cases hl : (env.index p.dbi).lookup k with
          | none =>
            rw [hl] at hden
            simp [denote, mdbIdlFetchKey] at hden
          | some ds =>
            rw [hl] at hden
            obtain ⟨l₁, l₂, heq, -⟩ := List.lookup_eq_some_iff.mp hl
            exact ⟨(k, ds), mem_scanKeys (hwf.sorted _) (by simp [heq]) hlen hside, hden⟩
  · exact presenceCandidates_mem hwf herr hidx hid fun p hp => hidx.ordering desc value p htrue hp

theorem extCandidates_mem (hidx : Indexed env e leaf) {mra : Mra} (hid : e.id ∈ IDL.all.denote)
    (htrue : leaf (.ext mra) = .true) : e.id ∈ (extCandidates env mra).2.denote := by
  unfold extCandidates
  dsimp only
  split
  · next hdn =>
    obtain ⟨hbase, hsup⟩ := hidx.ext mra htrue hdn
    split
    · next hr =>
      rw [hbase (.inl hr)]
      exact mem_singleton_self _
    · next hr =>
      split
      · exact hsup hr
      · exact hid
    · next hr =>
      split
      · rw [hbase (.inr hr)]
        exact mem_singleton_self _
      · exact hid
    · exact hid
  · exact hid

theorem clip_mem (hidx : Indexed env e leaf) {c : Cands} (hmem : e.id ∈ c.2.denote) :
    e.id ∈ (clip env c).2.denote := by
  obtain ⟨rc, ids⟩ := c
  cases ids with
  | list ids => exact hmem
  | range lo hi =>
    unfold clip
    dsimp only
    by_cases hhi : hi = NOID
    · rw [if_pos hhi]
      have hpos := hidx.pos
      by_cases hn : env.nextid ≠ 0
      · simp only [if_pos hn]
        exact ⟨hmem.1, hidx.nextid hn⟩
      · obtain ⟨l, hl, hle⟩ := hidx.last (not_not.mp hn)
        have hl0 : l ≠ 0 := by omega
        simp only [if_neg hn, hl, if_pos hl0]
        exact ⟨hmem.1, hle⟩
    · rw [if_neg hhi]
      exact hmem

theorem Indexed.hasEntries (hidx : Indexed env e leaf) : env.HasEntries := by
  by_cases hn : env.nextid = 0
  · obtain ⟨l, hl, -⟩ := hidx.last hn
    exact .inr ⟨l, hl⟩
  · exact .inl hn

theorem Indexed.mem_all (hwf : env.WellFormed) (hidx : Indexed env e leaf) : e.id ∈ IDL.all.denote := by
  have hpos := hidx.pos
  refine ⟨hpos, ?_⟩
  by_cases hn : env.nextid = 0
  · obtain ⟨l, hl, hle⟩ := hidx.last hn
    have := hwf.last l hl
    omega
  · have := hidx.nextid hn
    have := hwf.nextid
    omega

theorem testFilterAnd_eq_true : ∀ {rtn : Compare} {fs : FilterList}, testFilterAnd leaf rtn fs = .true →
    rtn = .true ∧ ∀ f ∈ fs.toList, testFilter leaf f = .true
  | rtn, .last f, h => by
    rw [testFilterAnd] at h
    cases hf : testFilter leaf f <;> simp_all [FilterList.toList]
  | rtn, .cons f fs, h => by
    have ih := fun rtn => @testFilterAnd_eq_true rtn fs
    rw [testFilterAnd] at h
    cases hf : testFilter leaf f with
    | true =>
      rw [hf] at h
      obtain ⟨hrtn, hall⟩ := ih rtn h
      exact ⟨hrtn, by simpa [FilterList.toList, hf] using hall⟩
    | false => simp [hf] at h
    | undefined =>
      rw [hf] at h
      cases (ih _ h).1
    | success =>
      rw [hf] at h
      cases (ih _ h).1
    | other code =>
      rw [hf] at h
      cases (ih _ h).1

theorem testFilterOr_eq_true : ∀ {rtn : Compare} {fs : FilterList}, testFilterOr leaf rtn fs = .true →
    rtn = .true ∨ ∃ f ∈ fs.toList, testFilter leaf f = .true
  | rtn, .last f, h => by
    rw [testFilterOr] at h
    cases hf : testFilter leaf f <;> simp_all [FilterList.toList]
  | rtn, .cons f fs, h => by
    have ih := fun rtn => @testFilterOr_eq_true rtn fs
    rw [testFilterOr] at h
    have hrest : ∀ rtn, testFilterOr leaf rtn fs = .true → rtn ≠ .true →
        ∃ g ∈ (FilterList.cons f fs).toList, testFilter leaf g = .true := by
      intro rtn h hne
      obtain ⟨g, hg, htrue⟩ := (ih rtn h).resolve_left hne
      exact ⟨g, mem_cons_of_mem _ hg, htrue⟩
    cases hf : testFilter leaf f with
    | true => exact .inr ⟨f, mem_cons_self, hf⟩
    | false =>
      rw [hf] at h
      by_cases hrtn : rtn = .true
      · exact .inl hrtn
      · exact .inr (hrest _ h hrtn)
    | undefined =>
      rw [hf] at h
      exact .inr (hrest _ h (by simp))
    | success =>
      rw [hf] at h
      exact .inr (hrest _ h (by simp))
    | other code =>
      rw [hf] at h
      exact .inr (hrest _ h (by simp))

theorem isScope_of_true {f : Filter} (h : testFilter leaf f = .true) : f.isScope = false := by
  cases f with
  | computed r => cases r <;> simp_all [testFilter, Filter.isScope]
  | _ => rfl

theorem mem_filterCandidates (hwf : env.WellFormed) (herr : env.NoErrors) (hidx : Indexed env e leaf) (f : Filter) :
    f.Complete env → testFilter leaf f = .true →
      ∀ {ids : IDL}, ids.Proper → e.id ∈ (mdbFilterCandidates env f ids).2.denote := by
  have hall := hidx.mem_all hwf
  induction f using Filter.inductionOn with
  | item f hf =>
    intro hc htrue ids hids
    cases f with
    | undefined => simp [testFilter] at htrue
    | computed r =>
      simp only [testFilter] at htrue
      subst htrue
      exact clip_mem hidx hall
    | present desc =>
      exact clip_mem hidx (presenceCandidates_mem hwf herr hidx hall fun p hp => hidx.present desc p htrue hp)
    | equality desc value => exact clip_mem hidx (equalityCandidates_mem hwf herr hidx hall htrue)
    | approx desc value =>
      exact clip_mem hidx (ruleCandidates_mem hwf herr hidx hall (hidx.approx desc value htrue))
    | substrings desc initial any final =>
      exact clip_mem hidx (ruleCandidates_mem hwf herr hidx hall (hidx.substrings desc initial any final htrue))
    | ge desc value =>
      exact clip_mem hidx (orderingCandidates_mem hwf herr hidx hall (.inl htrue) (hidx.ge desc value htrue) hc)
    | le desc value =>
      exact clip_mem hidx (orderingCandidates_mem hwf herr hidx hall (.inr htrue) (hidx.le desc value htrue) hc)
    | not f => exact absurd hf id
    | and fs => exact absurd hf id
    | or fs => exact absurd hf id
    | ext mra => exact clip_mem hidx (extCandidates_mem hidx hall htrue)
    | unknown => simp [testFilter] at htrue
  | not f _ => exact fun _ _ _ _ => clip_mem hidx hall
  | and fs ih =>
    intro hc htrue ids hids
    have hmem := (testFilterAnd_eq_true htrue).2
    have hcs := (FilterList.complete_iff env fs).mp hc
    refine clip_mem hidx ?_
    rw [listCandidates_eq]
    refine listLoop_and_mem (memberResults_proper hwf fs) hids ?_ fun r hr _ _ => ?_
    · -- no member fails, and none is a scope, since it is true
      have hhead : fs.head ∈ fs.toList := by cases fs <;> simp [FilterList.head, FilterList.toList]
      refine ⟨(fs.head.isScope, mdbFilterCandidates env fs.head .zero), ?_, isScope_of_true (hmem _ hhead),
        filterCandidates_rc hwf herr hidx.hasEntries _ _⟩
      cases fs <;> rfl
    · obtain ⟨g, hg, rfl⟩ := List.mem_map.mp hr
      exact ih g hg (hcs g hg) (hmem g hg) IDL.zero_proper
  | or fs ih =>
    intro hc htrue ids hids
    obtain ⟨g, hg, hgtrue⟩ := (testFilterOr_eq_true htrue).resolve_left (by simp)
    have hcs := (FilterList.complete_iff env fs).mp hc
    refine clip_mem hidx ?_
    rw [listCandidates_eq]
    have hmembers : ∀ r ∈ memberResults env fs, r.2.2.Proper ∧ r.2.1 = none := fun r hr => by
      refine ⟨memberResults_proper hwf fs r hr, ?_⟩
      obtain ⟨g, -, rfl⟩ := List.mem_map.mp hr
      exact filterCandidates_rc hwf herr hidx.hasEntries _ _
    exact ((listLoop_or_spec hmembers hids).2 _ (List.mem_map.mpr ⟨g, hg, rfl⟩) (isScope_of_true hgtrue)).2
      (ih g hg (hcs g hg) hgtrue IDL.zero_proper)

end Matching

def uidNumber : AttributeDescription := (AttributeType.root "uidNumber").ad

def valueRule : MatchingRule where
  indexer := fun _ _ _ vals => some vals
  filter := some fun _ _ _ a => match a with
    | .value v => some [v]
    | .sub _ _ _ => none
  orderedIndex := true

def twoEntries (unchecked : Option Nat) (readError : Nat → Key → Option Nat) : FilterEnv where
  schema := ⟨fun _ => some valueRule, fun _ => none, fun _ => none, fun _ => some valueRule, fun _ _ => none⟩
  mdb := [⟨uidNumber, 0, SLAP_INDEX_PRESENT ||| SLAP_INDEX_EQUALITY, 0⟩]
  index := fun dbi => if dbi = 0 then [(presenceKey, [1, 2]), ([1], [1]), ([2], [2])] else []
  readError := readError
  nextid := 2
  lastEntry := .ok 2
  mdbDn2id := fun _ => .error .notfound
  mdbDn2sups := fun _ => .zero
  dnIsSuffix := fun _ => false
  objectClass := (AttributeType.root "objectClass").ad
  entryDN := (AttributeType.root "entryDN").ad
  unchecked := unchecked

def entryOf (b : Byte) : Entry := ⟨b.val, [(uidNumber, [[b]])]⟩

/-- How the items evaluate on `entryOf b`. -/
def leafOf (b : Byte) : Filter → Compare
  | .present desc => if desc = uidNumber then .true else .false
  | .equality desc value => if desc = uidNumber ∧ value = [b] then .true else .false
  | .ge desc value => if desc = uidNumber ∧ value.length = 1 ∧ value ≤ [b] then .true else .false
  | .le desc value => if desc = uidNumber ∧ value.length = 1 ∧ [b] ≤ value then .true else .false
  | _ => .undefined

theorem twoEntries_wellFormed (unchecked : Option Nat) (readError : Nat → Key → Option Nat) :
    (twoEntries unchecked readError).WellFormed := by
  have hgood : ∀ ds : List Nat, Increasing ds → 0 ∉ ds → ds.length ≤ 2 → (∀ x ∈ ds, x ≤ 2) → ds ≠ [] →
      GoodData ds ∧ ds ≠ [] := fun ds hs h0 hlen hle hne =>
    ⟨⟨.list hs h0 (hlen.trans (by decide)), fun x hx => by
      have := hle x hx
      have : 3 < NOID := by decide
      omega⟩, hne⟩
  refine ⟨fun dbi => ?_, fun dbi p hp => ?_, by simp [twoEntries, NOID], ?_, ?_, fun _ => IDL.zero_proper⟩
  · simp only [twoEntries]
    split
    · decide
    · exact List.Pairwise.nil
  · simp only [twoEntries] at hp
    split at hp
    · simp only [mem_cons, not_mem_nil, or_false] at hp
      rcases hp with rfl | rfl | rfl
      · exact hgood _ (by simp [Increasing, DupSort.SortedBy]) (by simp) (by simp) (by simp) (by simp)
      · exact hgood _ (by simp [Increasing, DupSort.SortedBy]) (by simp) (by simp) (by simp) (by simp)
      · exact hgood _ (by simp [Increasing, DupSort.SortedBy]) (by simp) (by simp) (by simp) (by simp)
    · cases hp
  · intro l hl
    simp only [twoEntries, Except.ok.injEq] at hl
    subst hl
    decide
  · intro v id hid
    simp [twoEntries] at hid

theorem twoEntries_noErrors (unchecked : Option Nat) : (twoEntries unchecked fun _ _ => none).NoErrors :=
  ⟨fun _ _ => rfl, fun _ _ h => by simpa [twoEntries] using h.symm, fun _ h => by simp [twoEntries] at h⟩

theorem entryOf_generates {unchecked : Option Nat} {readError : Nat → Key → Option Nat}
    {key : Key} : (entryOf b).Generates (twoEntries unchecked readError) dbi key ↔
      dbi = 0 ∧ (key = presenceKey ∨ key = [b]) := by
  have hcalls : indexAtValues (twoEntries unchecked readError).schema (twoEntries unchecked readError).mdb
      (.root "uidNumber") "" [[b]] = [⟨0, [presenceKey]⟩, ⟨0, [[b]]⟩] := by
    simp [indexAtValues, indexAtType, indexDesc, mdbAttrMask, twoEntries, uidNumber, AttrInfo.updateMask, indexer,
      isSlapIndex, SLAP_INDEX_PRESENT, SLAP_INDEX_EQUALITY, SLAP_INDEX_APPROX, SLAP_INDEX_SUBSTR, valueRule]
  simp only [Entry.Generates, entryOf, exists_eq_left, Generates, uidNumber, AttributeType.ad, hcalls,
    mem_cons, not_mem_nil, or_false]
  constructor
  · rintro ⟨c, rfl | rfl, rfl, hk⟩
    · exact ⟨rfl, .inl (by simpa using hk)⟩
    · exact ⟨rfl, .inr (by simpa using hk)⟩
  · rintro ⟨rfl, rfl | rfl⟩
    · exact ⟨_, .inl rfl, rfl, by simp⟩
    · exact ⟨_, .inr rfl, rfl, by simp⟩

theorem twoEntries_param {unchecked : Option Nat} {readError : Nat → Key → Option Nat}
    {desc : AttributeDescription} {ftype : FilterType} {p : IndexParam}
    (h : mdbIndexParam (twoEntries unchecked readError).schema (twoEntries unchecked readError).mdb desc ftype =
      some p) : p.dbi = 0 := by
  obtain ⟨ai, hai, hdbi⟩ := mdbIndexParam_mem h
  simp only [twoEntries, mem_singleton] at hai
  rw [hdbi, hai]

theorem twoEntries_keys {unchecked : Option Nat} {readError : Nat → Key → Option Nat} {type : AttributeType}
    {p : IndexParam} {value : Value} {keys : List Key}
    (h : filterKeys ((twoEntries unchecked readError).schema.equality type) .equality p (.value value) =
      some keys) : keys = [value] := by
  simpa [filterKeys, twoEntries, valueRule] using h.symm

theorem leafOf_equality {desc : AttributeDescription} {value : Value}
    (h : leafOf b (.equality desc value) = .true) : desc = uidNumber ∧ value = [b] := by
  simp only [leafOf] at h
  split at h
  · assumption
  · cases h

theorem twoEntries_indexed (unchecked : Option Nat) (hb : b = 1 ∨ b = 2) :
    Indexed (twoEntries unchecked fun _ _ => none) (entryOf b) (leafOf b) where
  pos := by rcases hb with rfl | rfl <;> decide
  nextid := fun _ => by rcases hb with rfl | rfl <;> simp [entryOf, twoEntries]
  last := fun h => by simp [twoEntries] at h
  index := fun dbi key hgen => by
    obtain ⟨rfl, hk⟩ := entryOf_generates.mp hgen
    rcases hb with rfl | rfl <;> rcases hk with rfl | rfl <;>
      simp [twoEntries, entryOf, lookup_cons, presenceKey, denote, mdbIdlFetchKey]
  present := fun desc p _ hp => entryOf_generates.mpr ⟨twoEntries_param hp, .inl rfl⟩
  ordering := fun desc value p _ hp => entryOf_generates.mpr ⟨twoEntries_param hp, .inl rfl⟩
  equality := fun desc value htrue _ p keys hp hkeys key hkey => by
    rw [twoEntries_keys hkeys, (leafOf_equality htrue).2, mem_singleton] at hkey
    exact entryOf_generates.mpr ⟨twoEntries_param hp, .inr hkey⟩
  entryDN := fun value htrue => by
    have := (leafOf_equality htrue).1
    simp [twoEntries, uidNumber, AttributeType.ad] at this
  approx := fun desc value htrue => by simp [leafOf] at htrue
  substrings := fun desc initial any final htrue => by simp [leafOf] at htrue
  ge := fun desc value htrue _ p keys hp hkeys => by
    simp only [leafOf] at htrue
    split at htrue
    · next h =>
      rw [twoEntries_keys hkeys]
      exact ⟨[b], entryOf_generates.mpr ⟨twoEntries_param hp, .inr rfl⟩, by simpa using h.2.1.symm, h.2.2⟩
    · cases htrue
  le := fun desc value htrue _ p keys hp hkeys => by
    simp only [leafOf] at htrue
    split at htrue
    · next h =>
      rw [twoEntries_keys hkeys]
      exact ⟨[b], entryOf_generates.mpr ⟨twoEntries_param hp, .inr rfl⟩, by simpa using h.2.1.symm, h.2.2⟩
    · cases htrue
  ext := fun mra htrue => by simp [leafOf] at htrue

/-- The filter `(&(uidNumber>=1)(!(uidNumber=2)))`. -/
def oneNotTwo : Filter := .and (.cons (.ge uidNumber [1]) (.last (.not (.equality uidNumber [2]))))

end BackMdb
end ReOpenLDAP
