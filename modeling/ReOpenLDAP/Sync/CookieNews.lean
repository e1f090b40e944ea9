import ReOpenLDAP.Sync.Cookie

/-!
# Sync.CookieNews

Whether an array of CSNs has news for a cookie.

* `cookie_compare_csnset_iff` — when the result tells news.
-/

namespace ReOpenLDAP
namespace Sync
namespace SyncCookie

open List

def compareScan (next : Csn) (vector : Ordering) : List (Nat × Csn) → Except Ordering Ordering
  | [] => .ok vector
  | p :: ps =>
    if next.sid < p.1 then .error .gt
    else if next.sid = p.1 then
      let vector := slapCsnCompareTs next.text p.2.text
      if vector = .gt then .error vector else .ok vector
    else compareScan next vector ps

/-- One round for an element; `slap_csn_get_sid` fails for what is `none`. -/
def compareRound (base : SyncCookie) (vector : Ordering) : Option Csn → Except Ordering Ordering
  | none => .ok .lt
  | some next => compareScan next vector base.csns

/-- `slap_cookie_compare_csnset`, and how its result compares with 0. -/
def slapCookieCompareCsnset (base : SyncCookie) (next : List (Option Csn)) : Ordering :=
  match next.foldlM (compareRound base) .eq with
  | .ok vector => vector
  | .error vector => vector

def News (base : SyncCookie) (c : Csn) : Prop := base.at? c.sid = none ∨ ∃ old, base.at? c.sid = some old ∧ old.ts < c.ts

def Behind (base : SyncCookie) (c : Csn) : Prop := ∀ p ∈ base.csns, p.1 < c.sid

section

variable {base : SyncCookie} {c : Csn} {vector : Ordering} {next : List Csn}

theorem at?_cons {p : Nat × Csn} {ps : List (Nat × Csn)} {rid sid : Int} {s : Nat} :
    at? ⟨rid, sid, p :: ps⟩ s = if p.1 = s then some p.2 else at? ⟨rid, sid, ps⟩ s := by
  unfold at? DupSort.find
  rw [List.find?_cons]
  by_cases h : p.1 = s
  · simp [h]
  · simp [h]

theorem at?_eq_none_of_lt {csns : List (Nat × Csn)} {rid sid : Int} {s : Nat} (h : ∀ p ∈ csns, s < p.1) :
    at? ⟨rid, sid, csns⟩ s = none := by
  induction csns with
  | nil => rfl
  | cons p ps ih =>
    obtain ⟨hp, hps⟩ := List.forall_mem_cons.mp h
    rw [at?_cons, if_neg hp.ne']
    exact ih hps

theorem Behind.news (h : Behind base c) : News base c := by
  refine .inl ?_
  obtain ⟨rid, sid, csns⟩ := base
  induction csns with
  | nil => rfl
  | cons p ps ih =>
    obtain ⟨hp, hps⟩ := List.forall_mem_cons.mp h
    rw [at?_cons, if_neg (show p.1 ≠ c.sid from hp.ne)]
    exact ih hps

/-- A return is positive and says `P`; a run that goes on says that `P` does not hold, with something that is not positive. -/
def Tells (P : Prop) : Except Ordering Ordering → Prop
  | .error v => v = .gt ∧ P
  | .ok v => v ≠ .gt ∧ ¬ P

theorem compareScan_pos {csns : List (Nat × Csn)} {rid sid : Int} (h : DupSort.SortedBy Prod.fst csns) (hv : vector ≠ .gt) :
    Tells (News ⟨rid, sid, csns⟩ c ∧ ¬ Behind ⟨rid, sid, csns⟩ c) (compareScan c vector csns) := by
  induction csns with
  | nil => exact ⟨hv, fun hn => hn.2 (forall_mem_nil _)⟩
  | cons p ps ih =>
    obtain ⟨hp, hps⟩ := List.pairwise_cons.mp h
    unfold compareScan
    rcases lt_trichotomy c.sid p.1 with hlt | heq | hgt
    · have hnone : at? ⟨rid, sid, p :: ps⟩ c.sid = none :=
        at?_eq_none_of_lt (List.forall_mem_cons.mpr ⟨hlt, fun q hq => hlt.trans (hp q hq)⟩)
      have hfront : ¬ Behind ⟨rid, sid, p :: ps⟩ c := fun hb => hlt.asymm (hb p mem_cons_self)
      rw [if_pos hlt]
      exact ⟨rfl, .inl hnone, hfront⟩
    · have hsome : at? ⟨rid, sid, p :: ps⟩ c.sid = some p.2 := by rw [at?_cons, if_pos heq.symm]
      have hfront : ¬ Behind ⟨rid, sid, p :: ps⟩ c := fun hb => (hb p mem_cons_self).ne heq.symm
      have hnews : News ⟨rid, sid, p :: ps⟩ c ↔ slapCsnCompareTs c.text p.2.text = .gt := by
        rw [News, hsome, Csn.compareTs_gt]
        simp
      rw [if_neg (by omega), if_pos heq]
      dsimp only
      if hts : slapCsnCompareTs c.text p.2.text = .gt then
        rw [if_pos hts]
        exact ⟨hts, hnews.mpr hts, hfront⟩
      else
        rw [if_neg hts]
        exact ⟨hts, fun hn => hts (hnews.mp hn.1)⟩
    · have hat : at? ⟨rid, sid, p :: ps⟩ c.sid = at? ⟨rid, sid, ps⟩ c.sid := by rw [at?_cons, if_neg (by omega)]
      have hbehind : Behind ⟨rid, sid, p :: ps⟩ c ↔ Behind ⟨rid, sid, ps⟩ c := by simp [Behind, hgt]
      have hnews : News ⟨rid, sid, p :: ps⟩ c ↔ News ⟨rid, sid, ps⟩ c := by rw [News, News, hat]
      rw [if_neg (by omega), if_neg (by omega), hbehind, hnews]
      exact ih hps

theorem compareRounds_pos (h : DupSort.SortedBy Prod.fst base.csns) (hv : vector ≠ .gt) (next : List Csn) :
    Tells (∃ c ∈ next, News base c ∧ ¬ Behind base c) ((next.map some).foldlM (compareRound base) vector) := by
  induction next generalizing vector with
  | nil => exact ⟨hv, by simp⟩
  | cons c next ih =>
    have hscan := @compareScan_pos c vector base.csns base.rid base.sid h hv
    rw [map_cons, foldlM_cons, compareRound]
    cases hres : compareScan c vector base.csns with
    | error v =>
      rw [hres] at hscan
      exact ⟨hscan.1, c, mem_cons_self, hscan.2⟩
    | ok v =>
      rw [hres] at hscan
      have hrest : (∃ d ∈ c :: next, News base d ∧ ¬ Behind base d) ↔ ∃ d ∈ next, News base d ∧ ¬ Behind base d := by
        rw [exists_mem_cons_iff]
        exact or_iff_right hscan.2
      rw [hrest]
      exact ih hscan.1

theorem compareCsnset_pos (h : DupSort.SortedBy Prod.fst base.csns) :
    slapCookieCompareCsnset base (next.map some) = .gt ↔ ∃ c ∈ next, News base c ∧ ¬ Behind base c := by
  have hrun := @compareRounds_pos base .eq h (by decide) next
  unfold slapCookieCompareCsnset
  cases hres : (next.map some).foldlM (compareRound base) .eq with
  | error v =>
    rw [hres] at hrun
    exact iff_of_true hrun.1 hrun.2
  | ok v =>
    rw [hres] at hrun
    exact iff_of_false hrun.1 hrun.2

end

/-- The result is positive for news, exactly if a server behind the last one of the cookie does not come alone. -/
theorem cookie_compare_csnset_iff {base : SyncCookie} (h : base.Verified) (next : List Csn) :
    (slapCookieCompareCsnset base (next.map some) = .gt ↔ ∃ c ∈ next, News base c) ↔
      ∀ c ∈ next, Behind base c → ∃ d ∈ next, News base d ∧ ¬ Behind base d := by
  rw [compareCsnset_pos h.1]
  constructor
  · intro hiff c hc hb
    exact hiff.mpr ⟨c, hc, hb.news⟩
  · intro hall
    refine ⟨fun ⟨c, hc, hn, _⟩ => ⟨c, hc, hn⟩, fun ⟨c, hc, hn⟩ => ?_⟩
    by_cases hb : Behind base c
    · exact hall c hc hb
    · exact ⟨c, hc, hn, hb⟩

theorem cookie_compare_csnset_iff_one : Verified ⟨0, 0, [(1, firstCsn)]⟩ ∧
    ((slapCookieCompareCsnset ⟨0, 0, [(1, firstCsn)]⟩ ([secondCsn, otherCsn].map some) = .gt ↔
        ∃ c ∈ [secondCsn, otherCsn], News ⟨0, 0, [(1, firstCsn)]⟩ c) ↔
      ∀ c ∈ [secondCsn, otherCsn], Behind ⟨0, 0, [(1, firstCsn)]⟩ c →
        ∃ d ∈ [secondCsn, otherCsn], News ⟨0, 0, [(1, firstCsn)]⟩ d ∧ ¬ Behind ⟨0, 0, [(1, firstCsn)]⟩ d) := by
  have hv : Verified ⟨0, 0, [(1, firstCsn)]⟩ := ⟨pairwise_singleton _ _, by decide⟩
  exact ⟨hv, cookie_compare_csnset_iff hv _⟩

/-- The first CSN of server 2 for a cookie of server 1. -/
theorem cookie_compare_csnset_last : Verified ⟨0, 0, [(1, firstCsn)]⟩ ∧ News ⟨0, 0, [(1, firstCsn)]⟩ otherCsn ∧
    slapCookieCompareCsnset ⟨0, 0, [(1, firstCsn)]⟩ ([otherCsn].map some) = .eq ∧
    ¬ (slapCookieCompareCsnset ⟨0, 0, [(1, firstCsn)]⟩ ([otherCsn].map some) = .gt ↔
      ∃ c ∈ [otherCsn], News ⟨0, 0, [(1, firstCsn)]⟩ c) := by
  have hv : Verified ⟨0, 0, [(1, firstCsn)]⟩ := ⟨pairwise_singleton _ _, by decide⟩
  have hnews : News ⟨0, 0, [(1, firstCsn)]⟩ otherCsn := .inl (by decide)
  have heq : slapCookieCompareCsnset ⟨0, 0, [(1, firstCsn)]⟩ ([otherCsn].map some) = .eq := by decide
  refine ⟨hv, hnews, heq, fun hiff => ?_⟩
  have hgt := hiff.mpr ⟨otherCsn, mem_singleton_self _, hnews⟩
  rw [heq] at hgt
  cases hgt

end SyncCookie
end Sync
end ReOpenLDAP
