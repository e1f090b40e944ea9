import Mathlib.Data.List.Induction
import ReOpenLDAP.Lib.Ascii
import ReOpenLDAP.Sync.Cookie

/-!
# Sync.DelNonpresent

The end of a present phase: the consumer searches its database, and queues for deletion what the provider did not report.
-/

namespace ReOpenLDAP
namespace Sync

open List Function

def UUIDLEN : Nat := 16

def HASHUUID : Nat := 65003

structure Uuid where
  bytes : List (Fin 256)
  length_eq : bytes.length = UUIDLEN
deriving DecidableEq

/-- `body[0] % HASHUUID`, with the bytes of `body[0]` from the lowest one on. -/
def Uuid.slot (uuid : Uuid) : Nat := (uuid.bytes.take 4).foldr (fun b n => b.val + 256 * n) 0 % HASHUUID

/-- `presentlist_t`: `NULL`, or a tree of UUIDs for each slot. -/
structure Presentlist where
  opacity : Option (Nat → List Uuid)
  nodup : ∀ array ∈ opacity, ∀ i, (array i).Nodup

namespace Presentlist

def empty : Presentlist := ⟨none, fun _ h => nomatch h⟩

def array (list : Presentlist) : Nat → List Uuid := list.opacity.getD fun _ => []

theorem array_nodup (list : Presentlist) (i : Nat) : (list.array i).Nodup := by
  cases ho : list.opacity with
  | none => simp [array, ho]
  | some a => simpa [array, ho] using list.nodup a (by simp [ho]) i

theorem nodup_update {array : Nat → List Uuid} (h : ∀ i, (array i).Nodup) {slot : Nat} {uuids : List Uuid}
    (hs : uuids.Nodup) : ∀ a ∈ some (Function.update array slot uuids), ∀ i, (a i).Nodup := by
  rintro _ ⟨⟩ i
  by_cases hi : i = slot
  · subst hi
    rwa [update_self]
  · rw [update_of_ne hi]
    exact h i

/-- `presentlist_find` -/
def find (list : Presentlist) (uuid : Uuid) : Bool :=
  match list.opacity with
  | none => false
  | some array => decide (uuid ∈ array uuid.slot)

/-- `presentlist_insert`, and whether the UUID is new. -/
def insert (list : Presentlist) (uuid : Uuid) : Presentlist × Bool :=
  if h : uuid ∈ list.array uuid.slot then (⟨some list.array, by rintro _ ⟨⟩; exact list.array_nodup⟩, false)
  else (⟨some (Function.update list.array uuid.slot (uuid :: list.array uuid.slot)),
    nodup_update list.array_nodup (List.nodup_cons.mpr ⟨h, list.array_nodup _⟩)⟩, true)

/-- `presentlist_delete` -/
def delete (list : Presentlist) (uuid : Uuid) : Presentlist :=
  match h : list.opacity with
  | none => list
  | some array => ⟨some (Function.update array uuid.slot ((array uuid.slot).erase uuid)),
      nodup_update (list.nodup array h) ((list.nodup array h _).erase _)⟩

theorem find_delete (list : Presentlist) (uuid u : Uuid) :
    (list.delete uuid).find u = true ↔ u ≠ uuid ∧ list.find u = true := by
  rw [delete]
  split
  next h => simp [find, h]
  next array h =>
    simp only [find, h, decide_eq_true_eq]
    by_cases hs : u.slot = uuid.slot
    · rw [hs, update_self, (list.nodup array h _).mem_erase_iff]
    · rw [update_of_ne hs]
      refine ⟨fun hu => ⟨?_, hu⟩, And.right⟩
      rintro rfl
      exact hs rfl

end Presentlist

section

variable {δ : Type*}

structure Entry (δ : Type*) where
  e_name : δ
  entryUUID : Option Uuid
  entryCSN : Option Csn

/-- What `test_filter` returns. -/
inductive Compare where
  | true
  | false
  | undefined
deriving DecidableEq

/-- The nodes of a filter, linked by `f_next`. The consumer's own filter is one node. -/
inductive Filter (δ : Type*) where
  | null
  | and (f_and f_next : Filter δ)
  | le (f_av_value : Csn) (f_next : Filter δ)
  | own (test : Entry δ → Compare) (f_next : Filter δ)

/-- `test_ava_filter` for `LDAP_FILTER_LE` of `entryCSN`: `csnOrderingMatch` compares the whole text. -/
def testLe (e : Entry δ) (v : Csn) : Compare :=
  match e.entryCSN with
  | none => .false
  | some c => if c.text ≤ v.text then .true else .false

/-- One round of `test_filter_and`. -/
def andRound (rc rtn : Compare) (rest : Compare → Compare) : Compare :=
  if rc = .false then .false else rest (if rc = .true then rtn else rc)

/-- `test_filter_and` from one node of the list on. -/
def testFilterAnd (e : Entry δ) : Filter δ → Compare → Compare
  | .null, rtn => rtn
  | .and f_and f_next, rtn => andRound (testFilterAnd e f_and .true) rtn (testFilterAnd e f_next)
  | .le v f_next, rtn => andRound (testLe e v) rtn (testFilterAnd e f_next)
  | .own test f_next, rtn => andRound (test e) rtn (testFilterAnd e f_next)

def testFilter (e : Entry δ) : Filter δ → Compare
  | .null => .undefined
  | .and f_and _ => testFilterAnd e f_and .true
  | .le v _ => testLe e v
  | .own test _ => test e

/-- What `syncinfo_t` says here. -/
structure Syncinfo (δ : Type*) where
  si_multimaster : Bool
  si_filter : Entry δ → Compare
  si_inscope : Entry δ → Bool
  si_syncCookie : SyncCookie
  si_cutoff_csn : Csn
  si_presentlist : Presentlist
  si_got_present_list : Bool

def cookieCsn (origin : Nat) : List (Nat × Csn) → Option Csn
  | [] => none
  | p :: ps => if origin = p.1 then some p.2 else if origin < p.1 then none else cookieCsn origin ps

structure Retard where
  echo : Bool
  alter : Bool
  update : Bool
deriving DecidableEq

def Retard.any (r : Retard) : Bool := r.echo || r.alter || r.update

/-- The check of the incoming CSN in `check_for_retard`: an echo of what this server has sent. -/
def retardEcho (strict : Bool) (slap_serverID : Nat) (si : Syncinfo δ) (csn : Csn) : Bool :=
  (match cookieCsn csn.sid si.si_syncCookie.csns with
    | none => false
    | some c => decide (slapCsnCompareTs csn.text c.text ≠ .gt)) ||
  (strict && decide (csn.sid = slap_serverID) && decide (slapCsnCompareTs csn.text si.si_cutoff_csn.text ≠ .lt))

def retardAlter (sc : SyncCookie) (csn : Csn) : Bool :=
  match cookieCsn csn.sid sc.csns with
  | none => true
  | some c => decide (slapCsnCompareTs csn.text c.text = .gt)

/-- `check_for_retard`. All CSNs have more than 31 bytes, and a SID. -/
def checkForRetard (strict : Bool) (slap_serverID : Nat) (si : Syncinfo δ) (sc : Option SyncCookie)
    (csn_present csn_incomming : Option Csn) : Retard :=
  let echo := si.si_multimaster && csn_incomming.any (retardEcho strict slap_serverID si)
  let alter := si.si_multimaster && csn_present.any fun csn => sc.any fun sc => retardAlter sc csn
  match csn_present, csn_incomming with
  | some present, some incomming =>
    if slapCsnCompareTs present.text incomming.text = .gt then ⟨echo, alter, true⟩ else ⟨echo, false, false⟩
  | _, _ => ⟨echo, alter, false⟩

/-- `struct nonpresent_entry` -/
structure NonpresentEntry (δ : Type*) where
  npe_name : δ
  uuid : Option Uuid

structure Nonpresent (δ : Type*) where
  presentlist : Presentlist
  nonpresentlist : List (NonpresentEntry δ)

variable (strict : Bool) (slap_serverID : Nat) (si : Syncinfo δ) (sc : SyncCookie)

/-- The part of `nonpresent_callback` for an entry that is not in the present list. -/
def nonpresentEntry (st : Nonpresent δ) (e : Entry δ) : Nonpresent δ :=
  if e.entryCSN.isSome && (checkForRetard strict slap_serverID si (some sc) e.entryCSN none).any then st
  else { st with nonpresentlist := ⟨e.e_name, e.entryUUID⟩ :: st.nonpresentlist }

/-- `nonpresent_callback`; `one` is the flag `NP_DELETE_ONE`. -/
def nonpresentCallback (one : Bool) (st : Nonpresent δ) (e : Entry δ) : Nonpresent δ :=
  if one then nonpresentEntry strict slap_serverID si sc st e
  else
    match e.entryUUID with
    | none => st
    | some uuid =>
      if st.presentlist.find uuid then { st with presentlist := st.presentlist.delete uuid }
      else nonpresentEntry strict slap_serverID si sc st e

/-- `be_search`: the entries in scope, one after the other. -/
def beSearch (db : List (Entry δ)) (f : Filter δ) : List (Entry δ) :=
  db.filter fun e => si.si_inscope e && decide (testFilter e f = .true)

def cutoffFrom (v : Csn) : List (Nat × Csn) → Csn
  | [] => v
  | p :: ps => cutoffFrom (if slapCsnCompareTs p.2.text v.text = .gt then p.2 else v) ps

/-- The filter in multi-master mode, as `mmf` links it. -/
def mmf (v : Csn) : Filter δ := .and (.le v .null) (.own si.si_filter .null)

/-- The filter of the search, or `none` where there is no `ctxcsn[0]` to read. -/
def searchFilter : Option (Filter δ) :=
  if si.si_multimaster then
    match sc.csns with
    | [] => none
    | p :: ps => some (mmf si (cutoffFrom p.2 ps))
  else some (.own si.si_filter .null)

/-- `syncrepl_del_nonpresent`, up to the deletes: the queue and the present list. -/
def syncreplDelNonpresent (db : List (Entry δ)) (syncUUIDs : Option (List Uuid)) : Option (Nonpresent δ) :=
  let st : Nonpresent δ := ⟨si.si_presentlist, []⟩
  match syncUUIDs with
  | some uuids => some <| uuids.foldl (fun st uuid =>
      ((db.filter fun e => si.si_inscope e && decide (e.entryUUID = some uuid)).take 1).foldl
        (nonpresentCallback strict slap_serverID si sc true) st) st
  | none =>
    if ¬ si.si_got_present_list then some st
    else (searchFilter si sc).map fun f =>
      (beSearch si db f).foldl (nonpresentCallback strict slap_serverID si sc false) st

/-! ## What the provider no longer has -/

def Covered (c : Csn) : Prop := ∃ c', sc.at? c.sid = some c' ∧ c.ts ≤ c'.ts

def Gone (e : Entry δ) : Prop :=
  si.si_inscope e = true ∧ si.si_filter e = .true ∧ (∃ u, e.entryUUID = some u ∧ si.si_presentlist.find u = false) ∧
    (si.si_multimaster = true → ∃ c, e.entryCSN = some c ∧ Covered sc c)

def DeletesRight (db : List (Entry δ)) : Prop :=
  ∃ st, syncreplDelNonpresent strict slap_serverID si sc db none = some st ∧
    ∀ name, name ∈ st.nonpresentlist.map NonpresentEntry.npe_name ↔ ∃ e ∈ db, e.e_name = name ∧ Gone si sc e

def cutoff : Option Csn :=
  match sc.csns with
  | [] => none
  | p :: ps => some (cutoffFrom p.2 ps)

def Visited (e : Entry δ) : Prop :=
  si.si_inscope e = true ∧ if si.si_multimaster then ∃ c v, e.entryCSN = some c ∧ cutoff sc = some v ∧ c.text ≤ v.text
    else si.si_filter e = .true

/-- `check_for_retard` does not hold the entry back. -/
def Ripe (e : Entry δ) : Prop := si.si_multimaster = true → ∀ c, e.entryCSN = some c → Covered sc c

/-- The entry is queued when it is visited after those of `pre`. -/
def ToDelete (P : Presentlist) (pre : List (Entry δ)) (e : Entry δ) : Prop :=
  Ripe si sc e ∧ ∃ u, e.entryUUID = some u ∧ (P.find u = false ∨ ∃ e' ∈ pre, e'.entryUUID = some u)

structure SearchFits (db : List (Entry δ)) : Prop where
  /-- No entry that is gone is above the cut-off. -/
  reached : ∀ e ∈ db, Gone si sc e → Visited si sc e
  /-- No entry outside the consumer's filter is absent from the list and covered by the cookie. -/
  filtered : ∀ e ∈ db, Visited si sc e → Ripe si sc e →
    (∃ u, e.entryUUID = some u ∧ si.si_presentlist.find u = false) → si.si_filter e = .true
  /-- No UUID in the list stands for two entries. -/
  unique : db.Pairwise fun e e' => Visited si sc e → Visited si sc e' → Ripe si sc e' →
    ∀ u, e.entryUUID = some u → e'.entryUUID = some u → si.si_presentlist.find u = false

section

variable {strict slap_serverID si sc} {e : Entry δ} {db : List (Entry δ)}

theorem cookieCsn_eq_some {csns : List (Nat × Csn)} (h : DupSort.SortedBy Prod.fst csns) {origin : Nat} {c : Csn} :
    cookieCsn origin csns = some c ↔ (origin, c) ∈ csns := by
  induction csns with
  | nil => simp [cookieCsn]
  | cons p ps ih =>
    obtain ⟨hp, hps⟩ := DupSort.sortedBy_cons.mp h
    obtain ⟨sid, csn⟩ := p
    rw [cookieCsn, mem_cons]
    by_cases heq : origin = sid
    · subst heq
      rw [if_pos rfl, Option.some.injEq, Prod.mk.injEq]
      constructor
      · rintro rfl
        exact .inl ⟨rfl, rfl⟩
      · rintro (⟨-, rfl⟩ | hmem)
        · rfl
        · exact absurd (hp _ hmem) (lt_irrefl _)
    · have hcons : (origin, c) = (sid, csn) ∨ (origin, c) ∈ ps ↔ (origin, c) ∈ ps :=
        or_iff_right fun hsame => heq (Prod.mk.inj hsame).1
      rw [if_neg heq, hcons]
      by_cases hlt : origin < sid
      · rw [if_pos hlt]
        exact iff_of_false (by simp) fun hmem => absurd (hp _ hmem) (not_lt.mpr hlt.le)
      · rw [if_neg hlt, ih hps]

theorem cookieCsn_eq (h : sc.Verified) (origin : Nat) : cookieCsn origin sc.csns = sc.at? origin := by
  ext c
  rw [cookieCsn_eq_some h.1, SyncCookie.at?_eq_some h.1]

theorem retardAlter_eq_false (h : sc.Verified) {c : Csn} : retardAlter sc c = false ↔ Covered sc c := by
  rw [retardAlter, cookieCsn_eq h, Covered]
  cases hat : sc.at? c.sid with
  | none => simp
  | some c' => simp [Csn.compareTs_gt]

theorem retard_none (strict : Bool) (slap_serverID : Nat) (h : sc.Verified) {c : Csn} :
    (checkForRetard strict slap_serverID si (some sc) (some c) none).any = false ↔ (si.si_multimaster = true → Covered sc c) := by
  rw [← retardAlter_eq_false h]
  cases hm : si.si_multimaster with
  | false => simp [checkForRetard, Retard.any, hm]
  | true => simp [checkForRetard, Retard.any, hm]

theorem nonpresentEntry_ripe (h : sc.Verified) (st : Nonpresent δ) (hr : Ripe si sc e) :
    nonpresentEntry strict slap_serverID si sc st e =
      { st with nonpresentlist := ⟨e.e_name, e.entryUUID⟩ :: st.nonpresentlist } := by
  refine if_neg ?_
  cases hc : e.entryCSN with
  | none => simp
  | some c => simp [(retard_none strict slap_serverID h).mpr fun hm => hr hm c hc]

theorem nonpresentEntry_retard (h : sc.Verified) (st : Nonpresent δ) (hr : ¬ Ripe si sc e) :
    nonpresentEntry strict slap_serverID si sc st e = st := by
  refine if_pos ?_
  cases hc : e.entryCSN with
  | none => exact absurd (fun _ c hsome => nomatch hc.symm.trans hsome) hr
  | some c =>
    have hcov : ¬ (si.si_multimaster = true → Covered sc c) := by
      intro hcov
      refine hr fun hm c' hc' => ?_
      obtain rfl : c = c' := Option.some.inj (hc.symm.trans hc')
      exact hcov hm
    rw [← retard_none strict slap_serverID h, Bool.not_eq_false] at hcov
    simp [hcov]

theorem testFilter_mmf (v : Csn) : testFilter e (mmf si v) = .true ↔ ∃ c, e.entryCSN = some c ∧ c.text ≤ v.text := by
  cases hc : e.entryCSN with
  | none => simp [testFilter, mmf, testFilterAnd, andRound, testLe, hc]
  | some c =>
    by_cases hle : c.text ≤ v.text
    · simp [testFilter, mmf, testFilterAnd, andRound, testLe, hc, hle]
    · simp [testFilter, mmf, testFilterAnd, andRound, testLe, hc, hle]

theorem beSearch_spec (hne : sc.csns ≠ []) : ∃ f, searchFilter si sc = some f ∧
    ∀ e, (si.si_inscope e && decide (testFilter e f = .true)) = true ↔ Visited si sc e := by
  obtain ⟨p, ps, hcsns⟩ := exists_cons_of_ne_nil hne
  cases hm : si.si_multimaster with
  | false =>
    refine ⟨.own si.si_filter .null, by simp [searchFilter, hm], fun e => ?_⟩
    simp only [Visited, hm, Bool.and_eq_true, decide_eq_true_eq]
    rfl
  | true =>
    refine ⟨mmf si (cutoffFrom p.2 ps), by simp [searchFilter, hm, hcsns], fun e => ?_⟩
    simp only [Visited, hm, cutoff, hcsns, Bool.and_eq_true, decide_eq_true_eq, testFilter_mmf, if_true, Option.some.injEq]
    constructor
    · rintro ⟨hs, c, hc, hle⟩
      exact ⟨hs, c, _, hc, rfl, hle⟩
    · rintro ⟨hs, c, v, hc, rfl, hle⟩
      exact ⟨hs, c, hc, hle⟩

theorem find_foldl (V : List (Entry δ)) (st : Nonpresent δ) (u : Uuid) :
    (V.foldl (nonpresentCallback strict slap_serverID si sc false) st).presentlist.find u = true ↔
      st.presentlist.find u = true ∧ ∀ e ∈ V, e.entryUUID ≠ some u := by
  induction V generalizing st with
  | nil => simp
  | cons e V ih =>
    rw [foldl_cons, ih, forall_mem_cons, ← and_assoc]
    refine and_congr_left fun _ => ?_
    cases hu : e.entryUUID with
    | none => simp [nonpresentCallback, hu]
    | some uuid =>
      by_cases hf : st.presentlist.find uuid = true
      · simp only [nonpresentCallback, hu, hf, if_true, Bool.false_eq_true, if_false, Presentlist.find_delete]
        rw [and_comm, ne_eq, ne_eq, Option.some.injEq, @eq_comm _ u uuid]
      · have hlist : (nonpresentEntry strict slap_serverID si sc st e).presentlist = st.presentlist := by
          rw [nonpresentEntry]
          split <;> rfl
        simp only [nonpresentCallback, hu, hf, Bool.false_eq_true, if_false, hlist]
        refine ⟨fun h => ⟨h, ?_⟩, And.left⟩
        rintro ⟨⟩
        exact hf h

theorem queued_append {P : Presentlist} {V : List (Entry δ)} {e : Entry δ} {name : δ} :
    (∃ pre x post, V ++ [e] = pre ++ x :: post ∧ x.e_name = name ∧ ToDelete si sc P pre x) ↔
      (∃ pre x post, V = pre ++ x :: post ∧ x.e_name = name ∧ ToDelete si sc P pre x) ∨
        e.e_name = name ∧ ToDelete si sc P V e := by
  constructor
  · rintro ⟨pre, x, post, heq, hname, hq⟩
    rcases eq_nil_or_concat post with rfl | ⟨post, y, rfl⟩
    · obtain ⟨rfl, hx⟩ := append_inj' heq rfl
      obtain ⟨rfl⟩ := hx
      exact .inr ⟨hname, hq⟩
    · rw [concat_eq_append, ← cons_append, ← append_assoc] at heq
      obtain ⟨rfl, -⟩ := append_inj' heq rfl
      exact .inl ⟨pre, x, post, rfl, hname, hq⟩
  · rintro (⟨pre, x, post, rfl, hname, hq⟩ | ⟨hname, hq⟩)
    · exact ⟨pre, x, post ++ [e], by simp, hname, hq⟩
    · exact ⟨V, e, [], rfl, hname, hq⟩

theorem mem_foldl (h : sc.Verified) (V : List (Entry δ)) (P : Presentlist) (name : δ) :
    name ∈ (V.foldl (nonpresentCallback strict slap_serverID si sc false) ⟨P, []⟩).nonpresentlist.map
        NonpresentEntry.npe_name ↔
      ∃ pre e post, V = pre ++ e :: post ∧ e.e_name = name ∧ ToDelete si sc P pre e := by
  induction V using List.reverseRecOn with
  | nil => simp
  | append_singleton V e ih =>
    have hfind : ∀ u, (V.foldl (nonpresentCallback strict slap_serverID si sc false) ⟨P, []⟩).presentlist.find u = true ↔
        P.find u = true ∧ ∀ e ∈ V, e.entryUUID ≠ some u := find_foldl V ⟨P, []⟩
    rw [foldl_append, foldl_cons, foldl_nil, queued_append, ← ih]
    generalize V.foldl (nonpresentCallback strict slap_serverID si sc false) ⟨P, []⟩ = st at hfind ⊢
    cases hu : e.entryUUID with
    | none =>
      have hnot : ¬ ToDelete si sc P V e := by
        rintro ⟨-, u, hsome, -⟩
        exact nomatch hu.symm.trans hsome
      simp [nonpresentCallback, hu, hnot]
    | some uuid =>
      have hq : ToDelete si sc P V e ↔ Ripe si sc e ∧ st.presentlist.find uuid = false := by
        rw [ToDelete, ← Bool.not_eq_true, hfind]
        refine and_congr_right fun _ => ?_
        simp only [hu, Option.some.injEq, exists_eq_left', not_and_or, Bool.not_eq_true, not_forall, not_not, exists_prop]
      rw [hq]
      by_cases hf : st.presentlist.find uuid = true
      · simp [nonpresentCallback, hu, hf]
      · rw [Bool.not_eq_true] at hf
        by_cases hr : Ripe si sc e
        · simp [nonpresentCallback, hu, hf, nonpresentEntry_ripe h st hr, hr, or_comm, eq_comm]
        · simp [nonpresentCallback, hu, hf, nonpresentEntry_retard h st hr, hr]

theorem pairwise_of_split {α : Type*} {R : α → α → Prop} {l : List α}
    (h : ∀ pre b post, l = pre ++ b :: post → ∀ a ∈ pre, R a b) : l.Pairwise R := by
  induction l using List.reverseRecOn with
  | nil => exact .nil
  | append_singleton l x ih =>
    refine List.pairwise_append.mpr ⟨ih fun pre b post heq => h pre b (post ++ [x]) (by simp [heq]), by simp, ?_⟩
    intro a ha b hb
    obtain rfl := List.mem_singleton.mp hb
    exact h l b [] rfl a ha

theorem foldl_right_iff (hdb : (db.map Entry.e_name).Nodup) (h : sc.Verified) {p : Entry δ → Bool}
    (hp : ∀ e, p e = true ↔ Visited si sc e) :
    (∀ name, name ∈ ((db.filter p).foldl (nonpresentCallback strict slap_serverID si sc false)
        ⟨si.si_presentlist, []⟩).nonpresentlist.map NonpresentEntry.npe_name ↔ ∃ e ∈ db, e.e_name = name ∧ Gone si sc e) ↔
      SearchFits si sc db := by
  have hmem : ∀ {e}, e ∈ db.filter p ↔ e ∈ db ∧ Visited si sc e := by
    intro e
    rw [mem_filter, hp]
  have hinj : ∀ {e e' : Entry δ}, e ∈ db → e' ∈ db → e.e_name = e'.e_name → e = e' := fun he he' hn =>
    inj_on_of_nodup_map hdb he he' hn
  constructor
  · intro hright
    have hgone : ∀ pre e post, db.filter p = pre ++ e :: post → ToDelete si sc si.si_presentlist pre e → Gone si sc e := by
      intro pre e post heq hq
      have he : e ∈ db.filter p := by simp [heq]
      obtain ⟨e', he', hname, hg⟩ := (hright e.e_name).mp ((mem_foldl h _ _ _).mpr ⟨pre, e, post, heq, rfl, hq⟩)
      exact hinj he' (hmem.mp he).1 hname ▸ hg
    refine ⟨fun e he hg => ?_, fun e he hv hr hu => ?_, ?_⟩
    · obtain ⟨pre, e', post, heq, hname, -⟩ := (mem_foldl h _ _ _).mp ((hright e.e_name).mpr ⟨e, he, rfl, hg⟩)
      have he' : e' ∈ db.filter p := by simp [heq]
      exact hinj (hmem.mp he').1 he hname ▸ (hmem.mp he').2
    · obtain ⟨pre, post, heq⟩ := append_of_mem (hmem.mpr ⟨he, hv⟩)
      obtain ⟨u, hsome, habsent⟩ := hu
      exact (hgone pre e post heq ⟨hr, u, hsome, .inl habsent⟩).2.1
    · have hpair : (db.filter p).Pairwise fun e e' => Ripe si sc e' →
          ∀ u, e.entryUUID = some u → e'.entryUUID = some u → si.si_presentlist.find u = false := by
        refine pairwise_of_split fun pre e' post heq e he hr u hu hu' => ?_
        obtain ⟨u', hsome, habsent⟩ := (hgone pre e' post heq ⟨hr, u, hu', .inr ⟨e, he, hu⟩⟩).2.2.1
        obtain rfl : u = u' := Option.some.inj (hu'.symm.trans hsome)
        exact habsent
      exact (List.pairwise_filter.mp hpair).imp fun hR hv hv' => hR ((hp _).mpr hv) ((hp _).mpr hv')
  · intro hfits name
    rw [mem_foldl h]
    constructor
    · rintro ⟨pre, e, post, heq, rfl, hr, u, hu, hq⟩
      have he : e ∈ db.filter p := by simp [heq]
      obtain ⟨hdb', hv⟩ := hmem.mp he
      have habsent : si.si_presentlist.find u = false := by
        refine hq.elim id ?_
        rintro ⟨e', he', hu'⟩
        have hpair := List.pairwise_filter.mpr (hfits.unique.imp fun hR hv hv' => hR ((hp _).mp hv) ((hp _).mp hv'))
        rw [heq] at hpair
        exact (List.pairwise_append.mp hpair).2.2 e' he' e (mem_cons_self ..) hr u hu' hu
      refine ⟨e, hdb', rfl, hv.1, hfits.filtered e hdb' hv hr ⟨u, hu, habsent⟩, ⟨u, hu, habsent⟩, fun hm => ?_⟩
      obtain ⟨-, hcut⟩ := hv
      rw [if_pos hm] at hcut
      obtain ⟨c, v, hc, -⟩ := hcut
      exact ⟨c, hc, hr hm c hc⟩
    · rintro ⟨e, he, rfl, hg⟩
      obtain ⟨pre, post, heq⟩ := append_of_mem (hmem.mpr ⟨he, hfits.reached e he hg⟩)
      obtain ⟨-, -, ⟨u, hu, habsent⟩, hcov⟩ := hg
      refine ⟨pre, e, post, heq, rfl, fun hm c hc => ?_, u, hu, .inl habsent⟩
      obtain ⟨c', hc', hcovered⟩ := hcov hm
      obtain rfl : c = c' := Option.some.inj (hc.symm.trans hc')
      exact hcovered

/-- After a refresh that brought a present list, the queue is right exactly if the search fits. -/
theorem del_nonpresent_right_iff (hdb : (db.map Entry.e_name).Nodup) (h : sc.Verified) (hne : sc.csns ≠ [])
    (hgot : si.si_got_present_list = true) : DeletesRight strict slap_serverID si sc db ↔ SearchFits si sc db := by
  obtain ⟨f, hf, hvisited⟩ : ∃ f, searchFilter si sc = some f ∧
      ∀ e, (si.si_inscope e && decide (testFilter e f = .true)) = true ↔ Visited si sc e := beSearch_spec hne
  have hrun : syncreplDelNonpresent strict slap_serverID si sc db none =
      some ((beSearch si db f).foldl (nonpresentCallback strict slap_serverID si sc false) ⟨si.si_presentlist, []⟩) := by
    simp [syncreplDelNonpresent, hgot, hf]
  constructor
  · rintro ⟨st, hst, hright⟩
    obtain rfl := Option.some.inj (hrun.symm.trans hst)
    exact (foldl_right_iff hdb h hvisited).mp hright
  · intro hfits
    exact ⟨_, hrun, (foldl_right_iff hdb h hvisited).mpr hfits⟩

end

end

def firstUuid : Uuid := ⟨List.replicate 16 1, rfl⟩

def secondUuid : Uuid := ⟨List.replicate 16 2, rfl⟩

def partialSync (multimaster : Bool) (present : List Uuid) : Syncinfo Nat where
  si_multimaster := multimaster
  si_filter := fun e => if e.e_name = 1 then .true else .false
  si_inscope := fun _ => true
  si_syncCookie := ⟨1, 1, []⟩
  si_cutoff_csn := SyncCookie.firstCsn
  si_presentlist := present.foldl (fun list uuid => (list.insert uuid).1) .empty
  si_got_present_list := true

def twoEntries : List (Entry Nat) :=
  [⟨1, some firstUuid, some SyncCookie.firstCsn⟩, ⟨2, some secondUuid, some SyncCookie.firstCsn⟩]

def oneCookie : SyncCookie := ⟨1, 1, [(1, SyncCookie.firstCsn)]⟩

theorem oneCookie_verified : oneCookie.Verified := ⟨pairwise_singleton _ _, by decide⟩

set_option maxRecDepth 10000 in
/-- Entry 2 is not the consumer's, and the multi-master search takes it for one that is gone. -/
theorem del_nonpresent_outside_filter :
    ¬ DeletesRight false 1 (partialSync true [firstUuid]) oneCookie twoEntries := by
  rintro ⟨st, hst, hright⟩
  have hqueue : st.nonpresentlist.map NonpresentEntry.npe_name = [2] := by
    obtain rfl := Option.some.inj hst
    decide
  obtain ⟨e, he, hname, hg⟩ := (hright 2).mp (by simp [hqueue])
  have hfilter := hg.2.1
  simp [partialSync, hname] at hfilter

theorem del_nonpresent_right_single : DeletesRight false 1 (partialSync false []) oneCookie twoEntries :=
  (del_nonpresent_right_iff (by decide) oneCookie_verified (by decide) rfl).mpr
    { reached := fun _ _ hg => ⟨hg.1, hg.2.1⟩
      filtered := fun _ _ hv _ _ => hv.2
      unique := List.pairwise_pair.mpr fun _ _ _ _ _ _ => rfl }

end Sync
end ReOpenLDAP
