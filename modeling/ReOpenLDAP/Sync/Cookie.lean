import Mathlib.Order.WithBot
import ReOpenLDAP.Lib.DupSort
import ReOpenLDAP.Sync.Csn

/-!
# Sync.Cookie

Sync cookies: for each server the newest CSN that was seen from it. A cookie stands for a function from server IDs to
timestamps, and merging two cookies is the maximum of the functions.
-/

namespace ReOpenLDAP
namespace Sync

open List

/-- `struct sync_cookie`. The arrays `sids` and `ctxcsn` are one list here. -/
structure SyncCookie where
  rid : Int
  sid : Int
  csns : List (Nat × Csn)
deriving DecidableEq

namespace SyncCookie

/-- `slap_cookie_verify` -/
def Verified (ck : SyncCookie) : Prop :=
  DupSort.SortedBy Prod.fst ck.csns ∧ ∀ p ∈ ck.csns, p.1 = p.2.sid ∧ p.1 ≤ SLAP_SYNC_SID_MAX

/-- Where the loops over `sids` stop: at the SID, or at the first one above it. -/
def scanSid (sid : Nat) : List (Nat × Csn) → Nat
  | [] => 0
  | p :: ps => if sid < p.1 then 0 else if sid ≠ p.1 then scanSid sid ps + 1 else 0

def slapInsertCsnSids (ck : SyncCookie) (pos : Nat) (sid : Nat) (csn : Csn) : SyncCookie :=
  { ck with csns := ck.csns.insertIdx pos (sid, csn) }

/-- `slap_cookie_merge_csn` for a valid CSN, and its result. -/
def slapCookieMergeCsn (dst : SyncCookie) (sid : Nat) (src : Csn) : SyncCookie × Ordering :=
  let i := scanSid sid dst.csns
  match dst.csns[i]? with
  | some p =>
    if sid = p.1 then
      let vector := slapCsnCompareTs src.text p.2.text
      (if vector = .gt then { dst with csns := dst.csns.set i (p.1, src) } else dst, vector)
    else (dst.slapInsertCsnSids i sid src, .gt)
  | none => (dst.slapInsertCsnSids i sid src, .gt)

/-- Whether `ctxcsn[j]` is newer than `ctxcsn[l]`. -/
def newerAt (csns : List (Nat × Csn)) (j l : Nat) : Bool :=
  match csns[j]?, csns[l]? with
  | some p, some q => slapCsnCompareTs p.2.text q.2.text = .gt
  | _, _ => false

def nextLead (csns : List (Nat × Csn)) (j : Nat) : Option Nat → Option Nat
  | none => some j
  | some l => if newerAt csns j l then some j else some l

/-- One round of `slap_cookie_merge`: the cookie and `lead` (`none` for -1). -/
def mergeRound (st : SyncCookie × Option Nat) (src : Nat × Csn) : SyncCookie × Option Nat :=
  let (dst, lead) := st
  let j := scanSid src.1 dst.csns
  match dst.csns[j]? with
  | some p =>
    if src.1 = p.1 then
      if slapCsnCompareTs src.2.text p.2.text = .gt then
        let dst := { dst with csns := dst.csns.set j (p.1, src.2) }
        (dst, nextLead dst.csns j lead)
      else (dst, lead)
    else
      let dst := dst.slapInsertCsnSids j src.1 src.2
      (dst, nextLead dst.csns j lead)
  | none =>
    let dst := dst.slapInsertCsnSids j src.1 src.2
    (dst, nextLead dst.csns j lead)

def slapCookieMerge (dst src : SyncCookie) : SyncCookie × Option Nat := src.csns.foldl mergeRound (dst, none)

def at? (ck : SyncCookie) (sid : Nat) : Option Csn := (DupSort.find Prod.fst sid ck.csns).map Prod.snd

def stamp : Option Csn → WithBot (List Char ×ₗ List Char)
  | none => ⊥
  | some c => c.ts

def tsAt (ck : SyncCookie) (sid : Nat) : WithBot (List Char ×ₗ List Char) := stamp (ck.at? sid)

def newest : Option Csn → Option Csn → Option Csn
  | some a, some b => if a.ts < b.ts then some b else some a
  | none, b => b
  | a, none => a

theorem at?_eq_some {ck : SyncCookie} (h : DupSort.SortedBy Prod.fst ck.csns) {sid : Nat} {c : Csn} :
    ck.at? sid = some c ↔ (sid, c) ∈ ck.csns := by
  unfold at?
  rw [Option.map_eq_some_iff]
  constructor
  · intro ⟨p, hp, hc⟩
    obtain ⟨hmem, hsid⟩ := (DupSort.find_eq_some h).mp hp
    rw [← hsid, ← hc]
    exact hmem
  · intro hmem
    exact ⟨(sid, c), (DupSort.find_eq_some h).mpr ⟨hmem, rfl⟩, rfl⟩

theorem scanSid_spec {csns : List (Nat × Csn)} (h : DupSort.SortedBy Prod.fst csns) (sid : Nat) :
    scanSid sid csns ≤ csns.length ∧ (∀ i p, csns[i]? = some p → (i < scanSid sid csns ↔ p.1 < sid)) := by
  induction csns with
  | nil => exact ⟨le_refl _, by simp⟩
  | cons q qs ih =>
    obtain ⟨hq, hqs⟩ := DupSort.sortedBy_cons.mp h
    obtain ⟨hle, hlt⟩ := ih hqs
    have htail : ∀ {i : Nat} {p : Nat × Csn}, qs[i]? = some p → q.1 < p.1 := fun hp => hq _ (mem_of_getElem? hp)
    unfold scanSid
    split_ifs with h₁ h₂
    · refine ⟨Nat.zero_le _, ?_⟩
      intro i p hp
      cases i with
      | zero =>
        cases hp
        omega
      | succ i =>
        have := htail hp
        omega
    · refine ⟨by simpa using hle, ?_⟩
      intro i p hp
      cases i with
      | zero =>
        cases hp
        omega
      | succ i =>
        have := hlt i p hp
        omega
    · refine ⟨Nat.zero_le _, ?_⟩
      intro i p hp
      cases i with
      | zero =>
        cases hp
        omega
      | succ i =>
        have := htail hp
        omega

section

variable {dst : SyncCookie} {sid : Nat} {csn : Csn}

theorem mergeRound_fst (lead : Option Nat) : (mergeRound (dst, lead) (sid, csn)).1 = (dst.slapCookieMergeCsn sid csn).1 := by
  unfold mergeRound slapCookieMergeCsn
  simp only
  cases dst.csns[scanSid sid dst.csns]? with
  | none => rfl
  | some p =>
    dsimp only
    split_ifs <;> rfl

/-- `dst'` is `dst` with this CSN, at the index `j`. -/
structure Joined (dst dst' : SyncCookie) (j sid : Nat) (csn : Csn) : Prop where
  sorted : DupSort.SortedBy Prod.fst dst'.csns
  mem : ∀ s c, (s, c) ∈ dst'.csns ↔ (s = sid ∧ c = csn) ∨ (s ≠ sid ∧ (s, c) ∈ dst.csns)
  here : dst'.csns[j]? = some (sid, csn)
  before : ∀ i < j, dst'.csns[i]? = dst.csns[i]?
  older : ∀ old, dst.at? sid = some old → old.ts < csn.ts

theorem joined_insert (h : DupSort.SortedBy Prod.fst dst.csns)
    (hnew : ∀ p, dst.csns[scanSid sid dst.csns]? = some p → p.1 ≠ sid) :
    Joined dst (dst.slapInsertCsnSids (scanSid sid dst.csns) sid csn) (scanSid sid dst.csns) sid csn := by
  obtain ⟨hle, hscan⟩ := scanSid_spec h sid
  have hgt : ∀ i p, dst.csns[i]? = some p → scanSid sid dst.csns ≤ i → sid < p.1 := by
    intro i p hp hi
    have hge : ¬ p.1 < sid := fun hlt => absurd ((hscan i p hp).mpr hlt) (by omega)
    cases Nat.lt_or_eq_of_le hi with
    | inr hi => exact lt_of_le_of_ne (not_lt.mp hge) fun he => hnew p (hi ▸ hp) he.symm
    | inl hi =>
      -- the element where the scan stopped is below the ones behind it
      have hlen : i < dst.csns.length := (List.getElem?_eq_some_iff.mp hp).1
      obtain ⟨q, hq⟩ : ∃ q, dst.csns[scanSid sid dst.csns]? = some q := ⟨_, List.getElem?_eq_getElem (by omega)⟩
      have hqge : ¬ q.1 < sid := fun hlt => absurd ((hscan _ q hq).mpr hlt) (by omega)
      have hqp : q.1 < p.1 := h.lt_of_getElem? hq hp hi
      omega
  have habsent : ∀ c, (sid, c) ∉ dst.csns := by
    intro c hc
    obtain ⟨i, hi⟩ := mem_iff_getElem?.mp hc
    by_cases hlt : i < scanSid sid dst.csns
    · exact absurd ((hscan i _ hi).mp hlt) (lt_irrefl sid)
    · exact absurd (hgt i _ hi (by omega)) (lt_irrefl sid)
  refine ⟨?_, ?_, ?_, ?_, ?_⟩
  · exact h.insertIdx (fun j p hp hj => (hscan j p hp).mp hj) hgt
  · intro s c
    unfold slapInsertCsnSids
    rw [mem_insertIdx hle, Prod.mk.injEq]
    constructor
    · intro hm
      cases hm with
      | inl hm => exact .inl hm
      | inr hm => exact .inr ⟨fun hs => habsent c (hs ▸ hm), hm⟩
    · intro hm
      cases hm with
      | inl hm => exact .inl hm
      | inr hm => exact .inr hm.2
  · exact (List.getElem?_insertIdx_self).trans (if_pos hle)
  · intro i hi
    exact List.getElem?_insertIdx_of_lt hi
  · intro old hold
    exact absurd ((at?_eq_some h).mp hold) (habsent old)

theorem joined_set (h : DupSort.SortedBy Prod.fst dst.csns) {old : Csn}
    (hhere : dst.csns[scanSid sid dst.csns]? = some (sid, old)) (hnew : old.ts < csn.ts) :
    Joined dst { dst with csns := dst.csns.set (scanSid sid dst.csns) (sid, csn) } (scanSid sid dst.csns) sid csn := by
  obtain ⟨hlen, -⟩ := List.getElem?_eq_some_iff.mp hhere
  obtain ⟨hsorted, hmem⟩ := @DupSort.SortedBy.set _ _ _ Prod.fst (sid, csn) _ _ h _ hhere rfl
  refine ⟨hsorted, ?_, List.getElem?_set_self hlen, ?_, ?_⟩
  · intro s c
    rw [hmem, Prod.mk.injEq]
    constructor
    · intro hm
      cases hm with
      | inl hm => exact .inl hm
      | inr hm => exact .inr ⟨hm.2, hm.1⟩
    · intro hm
      cases hm with
      | inl hm => exact .inl hm
      | inr hm => exact .inr ⟨hm.2, hm.1⟩
  · intro i hi
    exact List.getElem?_set_ne (by omega)
  · intro o ho
    have heq := h.eq_of_key ((at?_eq_some h).mp ho) (mem_of_getElem? hhere) rfl
    cases heq
    exact hnew

theorem mergeRound_cases (h : DupSort.SortedBy Prod.fst dst.csns) (sid : Nat) (csn : Csn) (lead : Option Nat) :
    (∃ old, dst.at? sid = some old ∧ ¬ old.ts < csn.ts ∧ mergeRound (dst, lead) (sid, csn) = (dst, lead)) ∨
    ∃ dst', Joined dst dst' (scanSid sid dst.csns) sid csn ∧
      mergeRound (dst, lead) (sid, csn) = (dst', nextLead dst'.csns (scanSid sid dst.csns) lead) := by
  unfold mergeRound
  dsimp only
  cases hget : dst.csns[scanSid sid dst.csns]? with
  | none => exact .inr ⟨_, joined_insert h (by simp [hget]), rfl⟩
  | some p =>
    obtain ⟨s, old⟩ := p
    if hs : sid = s then
      subst hs
      have hold : dst.at? sid = some old := (at?_eq_some h).mpr (mem_of_getElem? hget)
      dsimp only
      rw [if_pos rfl]
      if hgt : slapCsnCompareTs csn.text old.text = .gt then
        rw [if_pos hgt]
        exact .inr ⟨_, joined_set h hget (Csn.compareTs_gt.mp hgt), rfl⟩
      else
        rw [if_neg hgt]
        exact .inl ⟨old, hold, fun hlt => hgt (Csn.compareTs_gt.mpr hlt), rfl⟩
    else
      dsimp only
      rw [if_neg hs]
      refine .inr ⟨_, joined_insert h ?_, rfl⟩
      intro p hp
      rw [hget] at hp
      cases hp
      exact fun he => hs he.symm

theorem Joined.at? {dst' : SyncCookie} {j : Nat} (h : DupSort.SortedBy Prod.fst dst.csns) (hj : Joined dst dst' j sid csn)
    (s : Nat) : dst'.at? s = if s = sid then some csn else dst.at? s := by
  have hat : ∀ c, dst'.at? s = some c ↔ (if s = sid then some csn else dst.at? s) = some c := by
    intro c
    rw [at?_eq_some hj.sorted, hj.mem]
    split_ifs with hs
    · simp [hs, eq_comm]
    · rw [at?_eq_some h]
      simp [hs]
  exact Option.ext hat

theorem newest_self_left {old : Csn} (hold : ¬ old.ts < csn.ts) : newest (some old) (some csn) = some old := by
  simp [newest, hold]

theorem mergeRound_spec (h : DupSort.SortedBy Prod.fst dst.csns) (sid : Nat) (csn : Csn) (lead : Option Nat) :
    DupSort.SortedBy Prod.fst (mergeRound (dst, lead) (sid, csn)).1.csns ∧
    ∀ s, (mergeRound (dst, lead) (sid, csn)).1.at? s = if s = sid then newest (dst.at? s) (some csn) else dst.at? s := by
  obtain ⟨old, hold, hnot, heq⟩ | ⟨dst', hj, heq⟩ := mergeRound_cases h sid csn lead
  · rw [heq]
    refine ⟨h, ?_⟩
    intro s
    split_ifs with hs
    · rw [hs, hold, newest_self_left hnot]
    · rfl
  · rw [heq]
    refine ⟨hj.sorted, ?_⟩
    intro s
    rw [hj.at? h]
    split_ifs with hs
    · rw [hs]
      cases hold : dst.at? sid with
      | none => rfl
      | some old => simp [newest, hj.older old hold]
    · rfl

end

/-! ## The merge -/

theorem newest_none (a : Option Csn) : newest a none = a := by
  cases a <;> rfl

theorem stamp_newest (a b : Option Csn) : stamp (newest a b) = max (stamp a) (stamp b) := by
  cases a with
  | none => exact (max_eq_right bot_le).symm
  | some a =>
    cases b with
    | none => exact (max_eq_left bot_le).symm
    | some b =>
      if hlt : a.ts < b.ts then
        rw [newest, if_pos hlt]
        exact (max_eq_right (WithBot.coe_le_coe.mpr hlt.le)).symm
      else
        rw [newest, if_neg hlt]
        exact (max_eq_left (WithBot.coe_le_coe.mpr (not_lt.mp hlt))).symm

theorem foldl_mergeRound {dst : SyncCookie} {l : List (Nat × Csn)} (h : DupSort.SortedBy Prod.fst dst.csns)
    (hl : (l.map Prod.fst).Nodup) (lead : Option Nat) :
    DupSort.SortedBy Prod.fst (l.foldl mergeRound (dst, lead)).1.csns ∧
    ∀ s, (l.foldl mergeRound (dst, lead)).1.at? s = newest (dst.at? s) ((DupSort.find Prod.fst s l).map Prod.snd) := by
  induction l generalizing dst lead with
  | nil => exact ⟨h, fun s => (newest_none _).symm⟩
  | cons p l ih =>
    obtain ⟨sid, csn⟩ := p
    obtain ⟨hp, hl⟩ := List.nodup_cons.mp hl
    obtain ⟨hsorted, hat⟩ := mergeRound_spec h sid csn lead
    obtain ⟨hsorted', hat'⟩ := @ih (mergeRound (dst, lead) (sid, csn)).1 hsorted hl (mergeRound (dst, lead) (sid, csn)).2
    refine ⟨hsorted', ?_⟩
    intro s
    rw [foldl_cons]
    rw [hat', hat]
    unfold DupSort.find
    if hs : s = sid then
      have hnone : (l.find? fun d => d.1 = s) = none := by
        refine List.find?_eq_none.mpr ?_
        intro q hq hqs
        exact hp (List.mem_map.mpr ⟨q, hq, (by simpa using hqs : q.1 = s).trans hs⟩)
      rw [if_pos hs, hnone, Option.map_none, newest_none, List.find?_cons_of_pos (by simp [hs])]
      rfl
    else
      rw [if_neg hs, List.find?_cons_of_neg (by simpa using fun he => hs he.symm)]

/-- `p` is news for the cookie. -/
def Advances (dst : SyncCookie) (p : Nat × Csn) : Prop := ∀ old, dst.at? p.1 = some old → old.ts < p.2.ts

/-- `lead` after the CSNs `done`: the index of a newest one that was news. -/
def LeadOk (dst : SyncCookie) (done : List (Nat × Csn)) (st : SyncCookie × Option Nat) : Prop :=
  match st.2 with
  | none => ∀ p ∈ done, ¬ Advances dst p
  | some i => ∃ p ∈ done, Advances dst p ∧ st.1.csns[i]? = some p ∧ ∀ q ∈ done, Advances dst q → q.2.ts ≤ p.2.ts

theorem LeadOk.step {dst : SyncCookie} {done : List (Nat × Csn)} {st : SyncCookie × Option Nat} {p : Nat × Csn}
    (h : DupSort.SortedBy Prod.fst st.1.csns) (hsame : st.1.at? p.1 = dst.at? p.1) (hdone : ∀ q ∈ done, q.1 < p.1)
    (hlead : LeadOk dst done st) : LeadOk dst (done ++ [p]) (mergeRound st p) := by
  obtain ⟨cur, lead⟩ := st
  obtain ⟨sid, csn⟩ := p
  have hlast : ∀ {P : Nat × Csn → Prop}, (∀ q ∈ done, P q) → P (sid, csn) → ∀ q ∈ done ++ [(sid, csn)], P q := by
    intro P hd hp q hq
    cases List.mem_append.mp hq with
    | inl hq => exact hd q hq
    | inr hq => exact List.mem_singleton.mp hq ▸ hp
  obtain ⟨old, hold, hnot, heq⟩ | ⟨dst', hj, heq⟩ := mergeRound_cases h sid csn lead
  · -- no news
    have hno : ¬ Advances dst (sid, csn) := fun hadv => hnot (hadv old (hsame ▸ hold))
    rw [heq]
    cases lead with
    | none => exact hlast hlead hno
    | some i =>
      obtain ⟨p, hp, hadv, hget, hmax⟩ := hlead
      exact ⟨p, mem_append_left _ hp, hadv, hget, hlast hmax fun hadv => absurd hadv hno⟩
  · have hadv : Advances dst (sid, csn) := fun old hold => hj.older old (hsame ▸ hold)
    have hmem : (sid, csn) ∈ done ++ [(sid, csn)] := mem_append_right _ mem_cons_self
    rw [heq]
    cases lead with
    | none => exact ⟨(sid, csn), hmem, hadv, hj.here, hlast (fun q hq hq' => absurd hq' (hlead q hq)) fun _ => le_refl _⟩
    | some i =>
      obtain ⟨p, hp, hpadv, hget, hmax⟩ := hlead
      -- the leader is of a smaller SID, so it keeps its index
      have hi : i < scanSid sid cur.csns := ((scanSid_spec h sid).2 i p hget).mpr (hdone p hp)
      have hget' : dst'.csns[i]? = some p := (hj.before i hi).trans hget
      have hnewer : newerAt dst'.csns (scanSid sid cur.csns) i = true ↔ p.2.ts < csn.ts := by
        unfold newerAt
        rw [hj.here, hget']
        simp [Csn.compareTs_gt]
      if hlt : p.2.ts < csn.ts then
        have hnext : nextLead dst'.csns (scanSid sid cur.csns) (some i) = some (scanSid sid cur.csns) :=
          if_pos (hnewer.mpr hlt)
        rw [hnext]
        exact ⟨(sid, csn), hmem, hadv, hj.here, hlast (fun q hq hq' => (hmax q hq hq').trans hlt.le) fun _ => le_refl _⟩
      else
        have hnext : nextLead dst'.csns (scanSid sid cur.csns) (some i) = some i :=
          if_neg fun hn => hlt (hnewer.mp hn)
        rw [hnext]
        exact ⟨p, mem_append_left _ hp, hpadv, hget', hlast hmax fun _ => not_lt.mp hlt⟩

theorem LeadOk.run {dst : SyncCookie} {done todo : List (Nat × Csn)} {st : SyncCookie × Option Nat}
    (h : DupSort.SortedBy Prod.fst st.1.csns) (hsame : ∀ p ∈ todo, st.1.at? p.1 = dst.at? p.1)
    (hsrc : DupSort.SortedBy Prod.fst (done ++ todo)) (hlead : LeadOk dst done st) :
    LeadOk dst (done ++ todo) (todo.foldl mergeRound st) := by
  induction todo generalizing done st with
  | nil =>
    rw [List.append_nil]
    exact hlead
  | cons p todo ih =>
    obtain ⟨-, htodo, hlt⟩ := List.pairwise_append.mp hsrc
    obtain ⟨hp, -⟩ := List.pairwise_cons.mp htodo
    obtain ⟨hsorted, hat⟩ := @mergeRound_spec st.1 h p.1 p.2 st.2
    have hassoc : done ++ p :: todo = (done ++ [p]) ++ todo := by simp
    rw [hassoc, foldl_cons]
    refine ih hsorted ?_ (hassoc ▸ hsrc) ?_
    · intro q hq
      have hne : q.1 ≠ p.1 := (hp q hq).ne'
      rw [hat, if_neg hne]
      exact hsame q (mem_cons_of_mem _ hq)
    · exact hlead.step h (hsame p mem_cons_self) fun q hq => hlt q hq p mem_cons_self

section

variable {dst src : SyncCookie}

theorem Verified.nodup (h : src.Verified) : (src.csns.map Prod.fst).Nodup :=
  List.pairwise_map.mpr (h.1.imp fun hab => hab.ne)

theorem merge_at? (hd : dst.Verified) (hs : src.Verified) (sid : Nat) :
    (slapCookieMerge dst src).1.at? sid = newest (dst.at? sid) (src.at? sid) :=
  (foldl_mergeRound hd.1 hs.nodup none).2 sid

theorem merge_verified (hd : dst.Verified) (hs : src.Verified) : (slapCookieMerge dst src).1.Verified := by
  have hsorted := (foldl_mergeRound hd.1 hs.nodup none).1
  refine ⟨hsorted, ?_⟩
  intro ⟨s, c⟩ hmem
  have hat := (at?_eq_some hsorted).mpr hmem
  rw [show src.csns.foldl mergeRound (dst, none) = slapCookieMerge dst src from rfl, merge_at? hd hs] at hat
  unfold newest at hat
  split at hat
  · rename_i a b ha hb
    split_ifs at hat
    · cases hat
      exact hs.2 _ ((at?_eq_some hs.1).mp hb)
    · cases hat
      exact hd.2 _ ((at?_eq_some hd.1).mp ha)
  · exact hs.2 _ ((at?_eq_some hs.1).mp hat)
  · exact hd.2 _ ((at?_eq_some hd.1).mp hat)

theorem merge_tsAt (hd : dst.Verified) (hs : src.Verified) (sid : Nat) :
    (slapCookieMerge dst src).1.tsAt sid = max (dst.tsAt sid) (src.tsAt sid) := by
  unfold tsAt
  rw [merge_at? hd hs, stamp_newest]

theorem merge_lead (hd : dst.Verified) (hs : src.Verified) : LeadOk dst src.csns (slapCookieMerge dst src) :=
  @LeadOk.run dst [] src.csns (dst, none) hd.1 (fun _ _ => rfl) hs.1 fun _ hp => by cases hp

theorem foldl_mergeCsn (l : List (Nat × Csn)) :
    l.foldl (fun d p => (d.slapCookieMergeCsn p.1 p.2).1) dst = (l.foldl mergeRound (dst, none)).1 := by
  have hany : ∀ (lead : Option Nat) (d : SyncCookie),
      l.foldl (fun d p => (d.slapCookieMergeCsn p.1 p.2).1) d = (l.foldl mergeRound (d, lead)).1 := by
    induction l with
    | nil => exact fun _ _ => rfl
    | cons p l ih =>
      intro lead d
      rw [foldl_cons, foldl_cons, ← mergeRound_fst lead]
      exact ih (mergeRound (d, lead) p).2 _
  exact hany none dst

end

/-- `slap_cookie_merge` makes the least cookie above both. -/
theorem slap_cookie_merge_join {dst src : SyncCookie} (hd : dst.Verified) (hs : src.Verified) :
    (slapCookieMerge dst src).1.Verified ∧
    (∀ sid, (slapCookieMerge dst src).1.at? sid = newest (dst.at? sid) (src.at? sid)) ∧
    (∀ sid, (slapCookieMerge dst dst).1.tsAt sid = dst.tsAt sid) ∧
    (∀ sid, (slapCookieMerge dst src).1.tsAt sid = (slapCookieMerge src dst).1.tsAt sid) ∧
    (∀ ck : SyncCookie, ck.Verified → ∀ sid, (slapCookieMerge (slapCookieMerge dst src).1 ck).1.tsAt sid =
      (slapCookieMerge dst (slapCookieMerge src ck).1).1.tsAt sid) ∧
    ((slapCookieMerge dst src).2 = none ↔ ∀ p ∈ src.csns, ¬ Advances dst p) ∧
    (∀ i, (slapCookieMerge dst src).2 = some i → ∃ p ∈ src.csns, Advances dst p ∧
      (slapCookieMerge dst src).1.csns[i]? = some p ∧ ∀ q ∈ src.csns, Advances dst q → q.2.ts ≤ p.2.ts) ∧
    (∀ l : List (Nat × Csn), l.Perm src.csns →
      ∀ sid, (l.foldl (fun d p => (d.slapCookieMergeCsn p.1 p.2).1) dst).at? sid = (slapCookieMerge dst src).1.at? sid) := by
  have hlead := merge_lead hd hs
  refine ⟨merge_verified hd hs, merge_at? hd hs, ?_, ?_, ?_, ?_, ?_, ?_⟩
  · intro sid
    rw [merge_tsAt hd hd, max_self]
  · intro sid
    rw [merge_tsAt hd hs, merge_tsAt hs hd, max_comm]
  · intro ck hck sid
    rw [merge_tsAt (merge_verified hd hs) hck, merge_tsAt hd hs, merge_tsAt hd (merge_verified hs hck), merge_tsAt hs hck,
      max_assoc]
  · unfold LeadOk at hlead
    constructor
    · intro hnone
      rw [hnone] at hlead
      exact hlead
    · intro hno
      cases hsome : (slapCookieMerge dst src).2 with
      | none => rfl
      | some i =>
        rw [hsome] at hlead
        obtain ⟨p, hp, hadv, -⟩ := hlead
        exact absurd hadv (hno p hp)
  · intro i hi
    unfold LeadOk at hlead
    rw [hi] at hlead
    exact hlead
  · intro l hl sid
    have hnd : (l.map Prod.fst).Nodup := (hl.map Prod.fst).nodup_iff.mpr hs.nodup
    have hfind : DupSort.find Prod.fst sid l = DupSort.find Prod.fst sid src.csns := by
      refine Option.ext fun p => ?_
      rw [DupSort.find_eq_some_of_nodup hnd, DupSort.find_eq_some hs.1, hl.mem_iff]
    rw [foldl_mergeCsn, (foldl_mergeRound hd.1 hnd none).2, merge_at? hd hs, hfind]
    rfl

def firstCsn : Csn := ⟨"20200101000000.000000Z#000000#001#000000".toList, by rw [String.toList_ofList]; decide⟩

def secondCsn : Csn := ⟨"20200101000001.000000Z#000000#001#000000".toList, by rw [String.toList_ofList]; decide⟩

def otherCsn : Csn := ⟨"20200101000002.000000Z#000000#002#000000".toList, by rw [String.toList_ofList]; decide⟩

theorem slap_cookie_merge_join_twoServers :
    (slapCookieMerge ⟨0, 0, [(1, firstCsn)]⟩ ⟨1, 0, [(1, secondCsn), (2, otherCsn)]⟩).1.Verified ∧
    slapCookieMerge ⟨0, 0, [(1, firstCsn)]⟩ ⟨1, 0, [(1, secondCsn), (2, otherCsn)]⟩ =
      (⟨0, 0, [(1, secondCsn), (2, otherCsn)]⟩, some 1) := by
  have hd : Verified ⟨0, 0, [(1, firstCsn)]⟩ := ⟨pairwise_singleton _ _, by decide⟩
  have hs : Verified ⟨1, 0, [(1, secondCsn), (2, otherCsn)]⟩ := ⟨by simp [DupSort.SortedBy], by decide⟩
  exact ⟨(slap_cookie_merge_join hd hs).1, by decide⟩

end SyncCookie
end Sync
end ReOpenLDAP
