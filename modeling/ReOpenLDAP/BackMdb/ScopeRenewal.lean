import ReOpenLDAP.BackMdb.Scope

/-!
# BackMdb.ScopeRenewal

`mdb_waitfixup` in a candidate-based search: the read transaction is renewed, and the records in `isc->scopes` are looked up in the
new snapshot.
-/

namespace ReOpenLDAP
namespace BackMdb

open List

def LDAP_BUSY : Int := 0x33

def LDAP_OTHER : Int := 0x50

/-- The keys of dn2id in a snapshot, each with its first record, and the keys whose lookup fails with another error. -/
structure Snapshot where
  records : List (Nat × DiskNode)
  sorted : DupSort.SortedBy Prod.fst records
  broken : List Nat

def Snapshot.own (snap : Snapshot) (id : Nat) : Option DiskNode := (snap.records.find? fun p => p.1 = id).map Prod.snd

/-- `MDBX_SET_RANGE`: the record of the first key from `id` on. -/
def Snapshot.setRange (snap : Snapshot) (id : Nat) : Except Rc DiskNode :=
  if id ∈ snap.broken then .error (.io 0)
  else
    match snap.records.find? fun p => id ≤ p.1 with
    | none => .error .notfound
    | some p => .ok p.2

/-- `for (i = 1; i < isc->scopes[0].mid; i++)` with `n` elements to come: `rc` and the elements. -/
def waitfixupLoop (snap : Snapshot) : Nat → List ID2 → Int × List ID2
  | 0, scopes => (0, scopes)
  | _ + 1, [] => (0, [])
  | n + 1, d :: scopes =>
    if d.mval.isNone then (waitfixupLoop snap n scopes).map id (d :: ·)
    else
      match snap.setRange d.mid with
      | .error rc => (if rc = .notfound then LDAP_BUSY else LDAP_OTHER, d :: scopes)
      | .ok r => (waitfixupLoop snap n scopes).map id ({ d with mval := some r } :: ·)

/-- `mdb_waitfixup` where `ww->mcd` is null. -/
def mdbWaitfixup (snap : Snapshot) (scopes : List ID2) : Int × List ID2 :=
  if 1 < scopes.length then waitfixupLoop snap (scopes.length - 1) scopes else (0, scopes)

variable {snap : Snapshot}

def ID2.Fresh (snap : Snapshot) (d : ID2) : Prop := ∀ r, d.mval = some r → snap.own d.mid = some r

def NeverStale (snap : Snapshot) (scopes : List ID2) : Prop :=
  (mdbWaitfixup snap scopes).1 = 0 → ∀ d ∈ (mdbWaitfixup snap scopes).2, d.Fresh snap

def ID2.Fails (snap : Snapshot) (d : ID2) : Prop := d.mval ≠ none ∧ (d.mid ∈ snap.broken ∨ ∀ p ∈ snap.records, p.1 < d.mid)

def ID2.Kept (snap : Snapshot) (d : ID2) : Prop := d.mval ≠ none → d.mid ∈ snap.records.map Prod.fst

theorem setRange_error {id : Nat} : (∃ rc, snap.setRange id = .error rc) ↔ id ∈ snap.broken ∨ ∀ p ∈ snap.records, p.1 < id := by
  unfold Snapshot.setRange
  by_cases hb : id ∈ snap.broken
  · simp [hb]
  · cases hfind : snap.records.find? fun p => id ≤ p.1 with
    | none => simpa [hb] using hfind
    | some p =>
      have hle := List.find?_some hfind
      have hmem := List.mem_of_find?_eq_some hfind
      simp only [hb, if_false, reduceCtorEq, exists_false, false_or, false_iff, not_forall, not_lt]
      exact ⟨p, hmem, by simpa using hle⟩

/-- The record that is found is the own one exactly if the ID is there. -/
theorem setRange_own {id : Nat} {r : DiskNode} (h : snap.setRange id = .ok r) :
    snap.own id = some r ↔ id ∈ snap.records.map Prod.fst := by
  unfold Snapshot.setRange at h
  split_ifs at h
  split at h
  · cases h
  · rename_i p hfind
    cases h
    rw [List.find?_eq_some_iff_append] at hfind
    obtain ⟨hle, pre, post, hrec, hpre⟩ := hfind
    have hlt : ∀ q ∈ pre, q.1 < id := fun q hq => by simpa using hpre q hq
    have hnone : pre.find? (fun p => decide (p.1 = id)) = none := List.find?_eq_none.mpr fun q hq => by simpa using (hlt q hq).ne
    have hs := snap.sorted
    rw [hrec] at hs
    have hpost := (DupSort.sortedBy_cons.mp (List.pairwise_append.mp hs).2.1).1
    rw [Snapshot.own, hrec, List.find?_append, hnone, Option.none_or, List.find?_cons]
    by_cases hid : p.1 = id
    · simp [hid]
    · have hgt : id < p.1 := lt_of_le_of_ne (by simpa using hle) (Ne.symm hid)
      have hpostnone : post.find? (fun p => decide (p.1 = id)) = none :=
        List.find?_eq_none.mpr fun q hq => by simpa using (hgt.trans (hpost q hq)).ne'
      have hpre' : ∀ a, (id, a) ∉ pre := fun a ha => absurd (hlt _ ha) (lt_irrefl _)
      have hpost' : ∀ a, (id, a) ∉ post := fun a ha => absurd (hgt.trans (hpost _ ha)) (lt_irrefl _)
      simp [hid, hpostnone, hpre', hpost', Ne.symm hid]

theorem waitfixupLoop_rc (scopes : List ID2) (last : ID2) :
    (waitfixupLoop snap scopes.length (scopes ++ [last])).1 = 0 ↔ ∀ d ∈ scopes, ¬ d.Fails snap := by
  induction scopes with
  | nil => simp [waitfixupLoop]
  | cons d scopes ih =>
    rw [length_cons, cons_append, waitfixupLoop, forall_mem_cons]
    cases hm : d.mval with
    | none => simpa [ID2.Fails, hm] using ih
    | some r =>
      have hfails : d.Fails snap ↔ ∃ rc, snap.setRange d.mid = .error rc := by simp [ID2.Fails, hm, setRange_error]
      rw [if_neg (by simp), hfails]
      cases snap.setRange d.mid with
      | error rc =>
        have hne : (if rc = .notfound then LDAP_BUSY else LDAP_OTHER) ≠ 0 := by split_ifs <;> decide
        simp [hne]
      | ok r => simpa using ih

theorem waitfixupLoop_fresh {scopes : List ID2} (last : ID2)
    (hok : ∀ d ∈ scopes, ¬ d.Fails snap) :
    (∀ d ∈ (waitfixupLoop snap scopes.length (scopes ++ [last])).2, d.Fresh snap) ↔ (∀ d ∈ scopes, d.Kept snap) ∧ last.Fresh snap := by
  induction scopes with
  | nil => simp [waitfixupLoop]
  | cons d scopes ih =>
    obtain ⟨hd, hrest⟩ := List.forall_mem_cons.mp hok
    rw [length_cons, cons_append, waitfixupLoop, forall_mem_cons, and_assoc, ← ih hrest]
    cases hm : d.mval with
    | none => simp [ID2.Kept, ID2.Fresh, hm]
    | some r =>
      rw [if_neg (by simp)]
      cases hget : snap.setRange d.mid with
      | error rc => exact absurd ⟨by simp [hm], setRange_error.mp ⟨rc, hget⟩⟩ hd
      | ok r' => simp [ID2.Fresh, ID2.Kept, hm, setRange_own hget]

theorem waitfixup_fresh_iff (snap : Snapshot) (scopes : List ID2) :
    NeverStale snap scopes ↔ (∃ d ∈ scopes.dropLast, d.Fails snap) ∨
      ((∀ d ∈ scopes.dropLast, d.Kept snap) ∧ ∀ last, scopes.getLast? = some last → last.Fresh snap) := by
  rcases eq_nil_or_concat' scopes with rfl | ⟨front, last, rfl⟩
  · simp [NeverStale, mdbWaitfixup]
  · have hrun : mdbWaitfixup snap (front ++ [last]) = waitfixupLoop snap front.length (front ++ [last]) := by
      cases front with
      | nil => rfl
      | cons d front => simp [mdbWaitfixup]
    rw [NeverStale, hrun, waitfixupLoop_rc, dropLast_concat, List.getLast?_concat]
    simp only [Option.some.injEq, forall_eq']
    by_cases hok : ∀ d ∈ front, ¬ d.Fails snap
    · have hno : ¬ ∃ d ∈ front, d.Fails snap := fun ⟨d, hd, hf⟩ => hok d hd hf
      rw [forall_prop_of_true hok, waitfixupLoop_fresh last hok, or_iff_right hno]
    · have hsome : ∃ d ∈ front, d.Fails snap := by simpa using hok
      simp [hok, hsome]

/-- The own record of an entry below `parent`. -/
def ownOf (rdn : Byte) (parent : Nat) : DiskNode := ⟨false, [rdn], [rdn], parent, 1⟩

/-- The second entry, below `parent`, and no other. -/
def onlySecond (parent : Nat) : Snapshot := ⟨[(2, ownOf 98 parent)], by simp [DupSort.SortedBy], []⟩

/-- The last element keeps the record of the old snapshot. -/
theorem waitfixup_last_stale :
    ¬ NeverStale (onlySecond 1) [⟨1, none⟩, ⟨2, some (ownOf 98 7)⟩] := by
  intro h
  exact absurd (h (by decide) ⟨2, some (ownOf 98 7)⟩ (by decide) _ rfl) (by decide)

/-- An ID that is gone gets the record of the next one. -/
example : mdbWaitfixup (onlySecond 1) [⟨1, some (ownOf 97 0)⟩, ⟨2, none⟩] = (0, [⟨1, some (ownOf 98 1)⟩, ⟨2, none⟩]) := by decide

end BackMdb
end ReOpenLDAP
