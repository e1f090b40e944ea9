import ReOpenLDAP.Sync.Cookie
import ReOpenLDAP.Sync.CookieText

/-!
# Sync.CookieState

The cookie that all consumers of a database share. Each section under `cs_mutex` is one step; `syncrepl_cookie_push` has
two, with the write to the database between them.
-/

namespace ReOpenLDAP
namespace Sync

open List Function

/-- `csn_qsort_cmp` is not positive. All CSNs are in normal form, so that the texts of their SIDs compare as the SIDs. -/
def csnQsortLe (a b : Csn) : Bool :=
  decide (a.sid < b.sid) || decide (a.sid = b.sid) && decide (slapCsnCompareTs b.text a.text ≠ .gt)

/-- The last loop of `slap_csns_validate_and_sort`. -/
def filterOutDups : List Csn → List Csn
  | [] => []
  | [a] => [a]
  | a :: b :: l => if a.sid = b.sid then filterOutDups (a :: l) else a :: filterOutDups (b :: l)
termination_by l => l.length

/-- `slap_csns_validate_and_sort`, and the SIDs as `slap_csns_parse_sids` finds them. -/
def contextCsns (k : Clock) (vals : List Csn) : List (Nat × Csn) :=
  (filterOutDups ((vals.filter fun c => slapCsnVerifyFull k c.text).mergeSort csnQsortLe)).map fun c => (c.sid, c)

def INT_MAX : Int := 2 ^ 31 - 1

def INT_MIN : Int := -2 ^ 31

/-- The loop of `slap_csns_compare`. -/
def csnsCompareFrom : Int → Int → List (Nat × Csn) → List (Nat × Csn) → Int
  | _, res, [], [] => res
  | _, _, [], _ :: _ => INT_MIN
  | _, _, _ :: _, [] => INT_MAX
  | n, res, x :: next, y :: base =>
    if y.1 < x.1 then INT_MIN
    else if x.1 < y.1 then csnsCompareFrom (n + 1) INT_MAX next (y :: base)
    else if slapCsnCompareTs x.2.text y.2.text = .lt then -n
    else csnsCompareFrom (n + 1) (if slapCsnCompareTs x.2.text y.2.text = .gt ∧ res = 0 then n else res) next base

def slapCsnsCompare (next base : List (Nat × Csn)) : Int := csnsCompareFrom 1 0 next base

/-- `slap_cookie_pull`, and `vector`. -/
def slapCookiePull (k : Clock) (dst : SyncCookie) (vals : List Csn) : SyncCookie × Int :=
  let src := contextCsns k vals
  let vector := slapCsnsCompare src dst.csns
  (if 0 < vector then { dst with csns := src } else dst, vector)

theorem csnQsortLe_iff {a b : Csn} : csnQsortLe a b = true ↔ toLex (a.sid, OrderDual.toDual a.ts) ≤ toLex (b.sid, OrderDual.toDual b.ts) := by
  rw [Prod.Lex.toLex_le_toLex]
  simp [csnQsortLe, Csn.compareTs_gt]

theorem filterOutDups_spec (l : List Csn) (h : l.Pairwise fun a b => a.sid ≤ b.sid) :
    (filterOutDups l).Pairwise (fun a b => a.sid < b.sid) ∧ ∀ c ∈ filterOutDups l, c ∈ l := by
  induction l using filterOutDups.induct with
  | case1 => simp [filterOutDups]
  | case2 a => simp [filterOutDups]
  | case3 a b l heq ih =>
    obtain ⟨ha, hbl⟩ := List.pairwise_cons.mp h
    have hal : (a :: l).Pairwise fun a b => a.sid ≤ b.sid :=
      List.pairwise_cons.mpr ⟨fun c hc => ha c (mem_cons_of_mem _ hc), hbl.tail⟩
    obtain ⟨hp, hm⟩ := ih hal
    rw [filterOutDups, if_pos heq]
    refine ⟨hp, fun c hc => ?_⟩
    rcases List.mem_cons.mp (hm c hc) with rfl | hl
    · exact mem_cons_self ..
    · exact mem_cons_of_mem _ (mem_cons_of_mem _ hl)
  | case4 a b l hne ih =>
    obtain ⟨ha, hbl⟩ := List.pairwise_cons.mp h
    obtain ⟨hp, hm⟩ := ih hbl
    rw [filterOutDups, if_neg hne]
    have hab : a.sid < b.sid := lt_of_le_of_ne (ha b (mem_cons_self ..)) hne
    refine ⟨List.pairwise_cons.mpr ⟨fun c hc => ?_, hp⟩, fun c hc => ?_⟩
    · rcases List.mem_cons.mp (hm c hc) with rfl | hl
      · exact hab
      · exact hab.trans_le ((List.pairwise_cons.mp hbl).1 c hl)
    · rcases List.mem_cons.mp hc with rfl | hc
      · exact mem_cons_self ..
      · exact mem_cons_of_mem _ (hm c hc)

theorem contextCsns_verified (k : Clock) (vals : List Csn) (rid sid : Int) :
    SyncCookie.Verified ⟨rid, sid, contextCsns k vals⟩ := by
  have hsort : ((vals.filter fun c => slapCsnVerifyFull k c.text).mergeSort csnQsortLe).Pairwise fun a b => a.sid ≤ b.sid := by
    refine (pairwise_mergeSort ?_ ?_ _).imp fun hab => ?_
    · intro a b c hab hbc
      exact csnQsortLe_iff.mpr ((csnQsortLe_iff.mp hab).trans (csnQsortLe_iff.mp hbc))
    · intro a b
      rw [Bool.or_eq_true, csnQsortLe_iff, csnQsortLe_iff]
      exact le_total _ _
    · exact (Prod.Lex.toLex_le_toLex.mp (csnQsortLe_iff.mp hab)).elim le_of_lt fun h => h.1.le
  refine ⟨List.pairwise_map.mpr (filterOutDups_spec _ hsort).1, fun p hp => ?_⟩
  obtain ⟨c, -, rfl⟩ := List.mem_map.mp hp
  exact ⟨rfl, c.sid_le⟩

theorem csnsCompareFrom_nonneg {n res : Int} {next base : List (Nat × Csn)} (hn : 0 < n)
    (h : 0 ≤ csnsCompareFrom n res next base) : ∀ p ∈ base, ∃ q ∈ next, q.1 = p.1 ∧ p.2.ts ≤ q.2.ts := by
  induction next generalizing n res base with
  | nil =>
    cases base with
    | nil => simp
    | cons y base => exact absurd h (by simp [csnsCompareFrom, INT_MIN])
  | cons x next ih =>
    cases base with
    | nil => simp
    | cons y base =>
      rw [csnsCompareFrom] at h
      by_cases hyx : y.1 < x.1
      · rw [if_pos hyx] at h
        exact absurd h (by decide)
      rw [if_neg hyx] at h
      by_cases hxy : x.1 < y.1
      · rw [if_pos hxy] at h
        intro p hp
        obtain ⟨q, hq, hqp⟩ := ih (by omega) h p hp
        exact ⟨q, mem_cons_of_mem _ hq, hqp⟩
      rw [if_neg hxy] at h
      by_cases hlt : slapCsnCompareTs x.2.text y.2.text = .lt
      · rw [if_pos hlt] at h
        omega
      rw [if_neg hlt] at h
      intro p hp
      rcases List.mem_cons.mp hp with rfl | hp
      · rw [Csn.compareTs_lt, not_lt] at hlt
        exact ⟨x, mem_cons_self .., by omega, hlt⟩
      · obtain ⟨q, hq, hqp⟩ := ih (by omega) h p hp
        exact ⟨q, mem_cons_of_mem _ hq, hqp⟩

theorem slapCookiePull_spec (k : Clock) {dst : SyncCookie} (hd : dst.Verified) (vals : List Csn) :
    (slapCookiePull k dst vals).1.Verified ∧ ∀ sid, dst.tsAt sid ≤ (slapCookiePull k dst vals).1.tsAt sid := by
  by_cases hv : 0 < slapCsnsCompare (contextCsns k vals) dst.csns
  · have hpull : (slapCookiePull k dst vals).1 = ⟨dst.rid, dst.sid, contextCsns k vals⟩ := if_pos hv
    have hver := contextCsns_verified k vals dst.rid dst.sid
    rw [hpull]
    refine ⟨hver, fun sid => ?_⟩
    cases hat : dst.at? sid with
    | none =>
      rw [SyncCookie.tsAt, hat]
      exact bot_le
    | some c =>
      obtain ⟨⟨sid', c'⟩, hq, rfl, hle⟩ :=
        csnsCompareFrom_nonneg Int.one_pos hv.le _ ((SyncCookie.at?_eq_some hd.1).mp hat)
      rw [SyncCookie.tsAt, SyncCookie.tsAt, hat, (SyncCookie.at?_eq_some hver.1).mpr hq]
      exact WithBot.coe_le_coe.mpr hle
  · have hpull : (slapCookiePull k dst vals).1 = dst := if_neg hv
    rw [hpull]
    exact ⟨hd, fun _ => le_refl _⟩

/-! ## The sections under `cs_mutex` -/

/-- `struct cookie_state`. `pulled` is not in the source: the CSNs taken over since `cs_updating` was set. -/
structure CookieState where
  cs_cookie : SyncCookie
  cs_age : Nat
  cs_updating : Bool
  pulled : List (Nat × Csn)

/-- What a consumer has of its own. `writing` is set between the two sections of `syncrepl_cookie_push`. -/
structure Consumer where
  si_syncCookie : SyncCookie
  si_cookieAge : Nat
  si_keep_cookie4search : Bool
  writing : Bool

/-- The state of the `n` consumers of a database; `n` is also `cs_ref`. -/
structure State (n : Nat) where
  cs : CookieState
  si : Fin n → Consumer

/-- `syncrepl_pull_contextCSN`; `none` where the database has no `contextCSN`. -/
def pullContextCsn (cs : CookieState) (k : Clock) (a_nvals : Option (List Csn)) : CookieState :=
  match a_nvals with
  | none => cs
  | some vals =>
    let r := slapCookiePull k cs.cs_cookie vals
    if 0 < r.2 then
      { cs with cs_cookie := r.1, cs_age := cs.cs_age + 1, pulled := if cs.cs_updating then cs.pulled ++ r.1.csns else [] }
    else cs

/-- `slap_cookie_clean_all` -/
def cleanCookie : SyncCookie := ⟨-1, -1, []⟩

inductive Act (n : Nat) where
  /-- `syncrepl_cookie_pull` -/
  | pull (i : Fin n) (k : Clock) (a_nvals : Option (List Csn))
  /-- `syncrepl_start`, with the cookie of the command line if there is one -/
  | start (i : Fin n) (cmdline : Option { ck : SyncCookie // ck.Verified }) (k : Clock) (a_nvals : Option (List Csn))
  /-- `syncrepl_cookie_push` up to the write -/
  | push (i : Fin n) (syncCookie : { ck : SyncCookie // ck.Verified })
  /-- `syncrepl_cookie_push` from the write on, and whether the write succeeded -/
  | pushed (i : Fin n) (success : Bool)
  /-- the reset in `syncrepl_entry` after a failed add -/
  | reset (i : Fin n)

namespace State

variable {n : Nat}

def setSi (s : State n) (i : Fin n) (si : Consumer) : State n := { s with si := Function.update s.si i si }

/-- `none` where the section is not the consumer's next one, or waits. -/
def step (s : State n) : Act n → Option (State n)
  | .pull i k a_nvals =>
    let si := s.si i
    if si.writing then none
    else if si.si_keep_cookie4search then some s
    else
      let cs := pullContextCsn s.cs k a_nvals
      let si := if si.si_cookieAge ≠ cs.cs_age then
          { si with si_syncCookie := (si.si_syncCookie.slapCookieMerge cs.cs_cookie).1, si_cookieAge := cs.cs_age }
        else si
      some ({ s with cs := cs }.setSi i si)
  | .start i cmdline k a_nvals =>
    let si := s.si i
    if si.writing then none
    else if si.si_syncCookie.csns ≠ [] then some s
    else
      match cmdline with
      | some cookie => some (s.setSi i { si with si_syncCookie := cookie.val, si_keep_cookie4search := true })
      | none =>
        let cs := pullContextCsn s.cs k a_nvals
        some ({ s with cs := cs }.setSi i { si with si_syncCookie := cs.cs_cookie, si_cookieAge := cs.cs_age })
  | .push i syncCookie =>
    let si := s.si i
    if si.writing then none
    else if syncCookie.val.csns = [] then some s
    else if s.cs.cs_updating then none
    else
      let (sc, lead) := s.cs.cs_cookie.slapCookieMerge syncCookie.val
      if lead = none then some s
      else some ({ s with cs := { s.cs with cs_updating := true, pulled := [] } }.setSi i
        { si with si_syncCookie := sc, writing := true })
  | .pushed i success =>
    let si := s.si i
    if ¬ si.writing then none
    else if success then
      some ({ s with cs := ⟨si.si_syncCookie, s.cs.cs_age + 1, false, []⟩ }.setSi i
        { si with si_cookieAge := s.cs.cs_age + 1, writing := false })
    else some ({ s with cs := { s.cs with cs_updating := false, pulled := [] } }.setSi i { si with writing := false })
  | .reset i =>
    let si := s.si i
    if si.writing then none
    else
      let cs := if n = 1 then { s.cs with cs_cookie := cleanCookie } else s.cs
      some ({ s with cs := cs }.setSi i { si with si_syncCookie := cleanCookie })

def init : State n := ⟨⟨⟨0, 0, []⟩, 0, false, []⟩, fun _ => ⟨⟨0, 0, []⟩, 0, false, false⟩⟩

def Forward (s s' : State n) : Prop := ∀ sid, s.cs.cs_cookie.tsAt sid ≤ s'.cs.cs_cookie.tsAt sid

def Monotone : State n → List (Act n) → Prop
  | _, [] => True
  | s, a :: as => ∀ s', s.step a = some s' → ((∃ i, a = .reset i) ∨ s.Forward s') ∧ Monotone s' as

def Covers (s : State n) : Act n → Prop
  | .pushed i true => ∀ p ∈ s.cs.pulled, (p.2.ts : WithBot (List Char ×ₗ List Char)) ≤ (s.si i).si_syncCookie.tsAt p.1
  | _ => True

def WritesCover : State n → List (Act n) → Prop
  | _, [] => True
  | s, a :: as => ∀ s', s.step a = some s' → s.Covers a ∧ WritesCover s' as

/-- While a consumer writes, its copy and what was pulled since have all of the shared cookie. -/
structure Writing (cs : CookieState) (own : SyncCookie) : Prop where
  updating : cs.cs_updating = true
  pulled : ∀ p ∈ cs.pulled, (p.2.ts : WithBot (List Char ×ₗ List Char)) ≤ cs.cs_cookie.tsAt p.1
  rest : ∀ sid, cs.cs_cookie.tsAt sid ≤ own.tsAt sid ∨
    ∃ p ∈ cs.pulled, p.1 = sid ∧ cs.cs_cookie.tsAt sid ≤ (p.2.ts : WithBot (List Char ×ₗ List Char))

structure Inv (s : State n) : Prop where
  cookie : s.cs.cs_cookie.Verified
  own : ∀ i, (s.si i).si_syncCookie.Verified
  writing : ∀ i, (s.si i).writing = true → Writing s.cs (s.si i).si_syncCookie
  unique : ∀ i j, (s.si i).writing = true → (s.si j).writing = true → i = j

theorem init_inv : Inv (init : State n) where
  cookie := ⟨.nil, by simp [init]⟩
  own _ := ⟨.nil, by simp [init]⟩
  writing _ h := nomatch h
  unique _ _ h := nomatch h

theorem pullContextCsn_some {k : Clock} {cs : CookieState} {vals : List Csn}
    (hv : 0 < (slapCookiePull k cs.cs_cookie vals).2) : pullContextCsn cs k (some vals) =
      ⟨(slapCookiePull k cs.cs_cookie vals).1, cs.cs_age + 1, cs.cs_updating,
        if cs.cs_updating then cs.pulled ++ (slapCookiePull k cs.cs_cookie vals).1.csns else []⟩ :=
  if_pos hv

theorem pullContextCsn_cases (k : Clock) (cs : CookieState) (a_nvals : Option (List Csn)) :
    pullContextCsn cs k a_nvals = cs ∨ ∃ vals, 0 < (slapCookiePull k cs.cs_cookie vals).2 ∧ a_nvals = some vals := by
  cases a_nvals with
  | none => exact .inl rfl
  | some vals =>
    by_cases hv : 0 < (slapCookiePull k cs.cs_cookie vals).2
    · exact .inr ⟨vals, hv, rfl⟩
    · exact .inl (if_neg hv)

theorem pull_cookie (k : Clock) {cs : CookieState} (hc : cs.cs_cookie.Verified) (a_nvals : Option (List Csn)) :
    (pullContextCsn cs k a_nvals).cs_cookie.Verified ∧
      ∀ sid, cs.cs_cookie.tsAt sid ≤ (pullContextCsn cs k a_nvals).cs_cookie.tsAt sid := by
  rcases pullContextCsn_cases k cs a_nvals with heq | ⟨vals, hv, rfl⟩
  · rw [heq]
    exact ⟨hc, fun _ => le_refl _⟩
  · rw [pullContextCsn_some hv]
    exact slapCookiePull_spec k hc vals

theorem tsAt_of_mem {ck : SyncCookie} (h : ck.Verified) {p : Nat × Csn} (hp : p ∈ ck.csns) : ck.tsAt p.1 = p.2.ts := by
  rw [SyncCookie.tsAt, (SyncCookie.at?_eq_some h.1).mpr hp]
  rfl

theorem tsAt_cases {ck : SyncCookie} (h : ck.Verified) (sid : Nat) :
    ck.tsAt sid = ⊥ ∨ ∃ p ∈ ck.csns, p.1 = sid ∧ ck.tsAt sid = p.2.ts := by
  cases hat : ck.at? sid with
  | none =>
    left
    rw [SyncCookie.tsAt, hat]
    rfl
  | some c =>
    right
    refine ⟨(sid, c), (SyncCookie.at?_eq_some h.1).mp hat, rfl, ?_⟩
    rw [SyncCookie.tsAt, hat]
    rfl

theorem Writing.pull {cs : CookieState} {own : SyncCookie} (h : Writing cs own) (hc : cs.cs_cookie.Verified) (k : Clock)
    (a_nvals : Option (List Csn)) : Writing (pullContextCsn cs k a_nvals) own := by
  obtain ⟨hver, hle⟩ := pull_cookie k hc a_nvals
  rcases pullContextCsn_cases k cs a_nvals with heq | ⟨vals, hv, rfl⟩
  · rwa [heq]
  · rw [pullContextCsn_some hv] at hver hle ⊢
    refine ⟨h.updating, fun p hp => ?_, fun sid => ?_⟩
    · rw [if_pos h.updating] at hp
      rcases List.mem_append.mp hp with hp | hp
      · exact (h.pulled p hp).trans (hle p.1)
      · exact (tsAt_of_mem hver hp).ge
    · rcases tsAt_cases hver sid with hbot | ⟨p, hp, hsid, hts⟩
      · exact .inl (hbot.trans_le bot_le)
      · refine .inr ⟨p, ?_, hsid, hts.le⟩
        rw [if_pos h.updating]
        exact mem_append_right _ hp

theorem Inv.pull {s : State n} (h : s.Inv) (k : Clock) (a_nvals : Option (List Csn)) :
    Inv { s with cs := pullContextCsn s.cs k a_nvals } where
  cookie := (pull_cookie k h.cookie a_nvals).1
  own := h.own
  writing i hi := (h.writing i hi).pull h.cookie k a_nvals
  unique := h.unique

theorem Inv.setSi {s : State n} (h : s.Inv) {i : Fin n} {si : Consumer} (hw : si.writing = false)
    (hv : si.si_syncCookie.Verified) : Inv (s.setSi i si) where
  cookie := h.cookie
  own := forall_update_iff s.si (fun _ c => c.si_syncCookie.Verified) |>.mpr ⟨hv, fun j _ => h.own j⟩
  writing := forall_update_iff s.si (fun _ c => c.writing = true → Writing s.cs c.si_syncCookie) |>.mpr
    ⟨fun hsi => absurd (hw.symm.trans hsi) (by decide), fun j _ => h.writing j⟩
  unique j j' hj hj' := by
    have hne : ∀ j, ((s.setSi i si).si j).writing = true → (s.si j).writing = true := by
      refine forall_update_iff s.si (fun j c => c.writing = true → (s.si j).writing = true) |>.mpr ?_
      exact ⟨fun hsi => absurd (hw.symm.trans hsi) (by decide), fun _ _ => id⟩
    exact h.unique j j' (hne j hj) (hne j' hj')

theorem step_pull {s s' : State n} (h : s.Inv) {i : Fin n} {k : Clock} {a_nvals : Option (List Csn)}
    (hs : s.step (.pull i k a_nvals) = some s') : s'.Inv ∧ s.Forward s' := by
  simp only [step] at hs
  by_cases hw : (s.si i).writing = true
  · rw [if_pos hw] at hs
    cases hs
  rw [if_neg hw] at hs
  rw [Bool.not_eq_true] at hw
  by_cases hkeep : (s.si i).si_keep_cookie4search = true
  · rw [if_pos hkeep] at hs
    obtain rfl := Option.some.inj hs
    exact ⟨h, fun _ => le_refl _⟩
  rw [if_neg hkeep] at hs
  obtain rfl := Option.some.inj hs
  obtain ⟨hver, hle⟩ := pull_cookie k h.cookie a_nvals
  refine ⟨(h.pull k a_nvals).setSi ?_ ?_, hle⟩
  · split
    · exact hw
    · exact hw
  · split
    · exact SyncCookie.merge_verified (h.own i) hver
    · exact h.own i

theorem step_start {s s' : State n} (h : s.Inv) {i : Fin n} {cmdline : Option { ck : SyncCookie // ck.Verified }} {k : Clock}
    {a_nvals : Option (List Csn)} (hs : s.step (.start i cmdline k a_nvals) = some s') : s'.Inv ∧ s.Forward s' := by
  simp only [step] at hs
  by_cases hw : (s.si i).writing = true
  · rw [if_pos hw] at hs
    cases hs
  rw [if_neg hw] at hs
  rw [Bool.not_eq_true] at hw
  by_cases hne : (s.si i).si_syncCookie.csns ≠ []
  · rw [if_pos hne] at hs
    obtain rfl := Option.some.inj hs
    exact ⟨h, fun _ => le_refl _⟩
  rw [if_neg hne] at hs
  cases cmdline with
  | some cookie =>
    obtain rfl := Option.some.inj hs
    exact ⟨h.setSi hw cookie.property, fun _ => le_refl _⟩
  | none =>
    obtain rfl := Option.some.inj hs
    obtain ⟨hver, hle⟩ := pull_cookie k h.cookie a_nvals
    exact ⟨(h.pull k a_nvals).setSi hw hver, hle⟩

theorem step_push {s s' : State n} (h : s.Inv) {i : Fin n} {syncCookie : { ck : SyncCookie // ck.Verified }}
    (hs : s.step (.push i syncCookie) = some s') : s'.Inv ∧ s.Forward s' := by
  have hstay : some s = some s' → s'.Inv ∧ s.Forward s' := by
    rintro ⟨⟩
    exact ⟨h, fun _ => le_refl _⟩
  simp only [step] at hs
  by_cases hw : (s.si i).writing = true
  · rw [if_pos hw] at hs
    cases hs
  rw [if_neg hw] at hs
  by_cases hnil : syncCookie.val.csns = []
  · rw [if_pos hnil] at hs
    exact hstay hs
  rw [if_neg hnil] at hs
  by_cases hup : s.cs.cs_updating = true
  · rw [if_pos hup] at hs
    cases hs
  rw [if_neg hup] at hs
  by_cases hlead : (s.cs.cs_cookie.slapCookieMerge syncCookie.val).2 = none
  · rw [if_pos hlead] at hs
    exact hstay hs
  rw [if_neg hlead] at hs
  obtain rfl := Option.some.inj hs
  -- nobody else writes
  have hnone : ∀ j, (s.si j).writing ≠ true := fun j hj => hup (h.writing j hj).updating
  have hver := SyncCookie.merge_verified h.cookie syncCookie.property
  have hts := SyncCookie.merge_tsAt h.cookie syncCookie.property
  have hi : ∀ j, (Function.update s.si i ⟨(s.cs.cs_cookie.slapCookieMerge syncCookie.val).1, (s.si i).si_cookieAge,
      (s.si i).si_keep_cookie4search, true⟩ j).writing = true → j = i := by
    intro j hj
    by_contra hji
    rw [update_of_ne hji] at hj
    exact hnone j hj
  refine ⟨⟨h.cookie, ?_, fun j hj => ?_, fun j j' hj hj' => (hi j hj).trans (hi j' hj').symm⟩, fun _ => le_refl _⟩
  · exact forall_update_iff s.si (fun _ c => c.si_syncCookie.Verified) |>.mpr ⟨hver, fun j _ => h.own j⟩
  · obtain rfl := hi j hj
    change Writing _ (Function.update s.si j _ j).si_syncCookie
    rw [update_self]
    refine ⟨rfl, ?_, fun sid => .inl ?_⟩
    · exact fun p hp => absurd hp not_mem_nil
    · rw [hts]
      exact le_max_left _ _

theorem Inv.done {s : State n} (h : s.Inv) {i : Fin n} (hi : (s.si i).writing = true) {si : Consumer} (hw : si.writing = false)
    (hv : si.si_syncCookie.Verified) {cs : CookieState} (hc : cs.cs_cookie.Verified) : Inv ({ s with cs := cs }.setSi i si) := by
  have hnone : ∀ j, (({ s with cs := cs }.setSi i si).si j).writing ≠ true := by
    refine forall_update_iff s.si (fun _ c => c.writing ≠ true) |>.mpr ⟨by simp [hw], fun j hj hwj => ?_⟩
    exact hj (h.unique j i hwj hi)
  exact ⟨hc, forall_update_iff s.si (fun _ c => c.si_syncCookie.Verified) |>.mpr ⟨hv, fun j _ => h.own j⟩,
    fun j hj => absurd hj (hnone j), fun j _ hj => absurd hj (hnone j)⟩

theorem step_pushed {s s' : State n} (h : s.Inv) {i : Fin n} {success : Bool}
    (hs : s.step (.pushed i success) = some s') : s'.Inv ∧ (s.Forward s' ↔ s.Covers (.pushed i success)) := by
  simp only [step] at hs
  by_cases hw : (s.si i).writing = true
  · rw [if_neg (not_not_intro hw)] at hs
    cases success with
    | false =>
      obtain rfl := Option.some.inj hs
      refine ⟨Inv.done h hw ?_ ?_ ?_, iff_of_true (fun _ => le_refl _) trivial⟩
      · rfl
      · exact h.own i
      · exact h.cookie
    | true =>
      obtain rfl := Option.some.inj hs
      obtain ⟨-, hpulled, hrest⟩ := h.writing i hw
      refine ⟨Inv.done h hw ?_ ?_ ?_, fun hf p hp => (hpulled p hp).trans (hf p.1), fun hcov sid => ?_⟩
      · rfl
      · exact h.own i
      · exact h.own i
      · rcases hrest sid with hle | ⟨p, hp, rfl, hle⟩
        · exact hle
        · exact hle.trans (hcov p hp)
  · rw [if_pos hw] at hs
    cases hs

theorem step_reset {s s' : State n} (h : s.Inv) {i : Fin n} (hs : s.step (.reset i) = some s') : s'.Inv := by
  have hclean : cleanCookie.Verified := ⟨.nil, by simp [cleanCookie]⟩
  simp only [step] at hs
  by_cases hw : (s.si i).writing = true
  · rw [if_pos hw] at hs
    cases hs
  rw [if_neg hw] at hs
  obtain rfl := Option.some.inj hs
  by_cases hn : n = 1
  · subst hn
    -- the only consumer does not write
    have hnone : ∀ j, (s.si j).writing ≠ true := fun j hj => hw (Subsingleton.elim j i ▸ hj)
    have hinv : Inv { s with cs := { s.cs with cs_cookie := cleanCookie } } :=
      ⟨hclean, h.own, fun j hj => absurd hj (hnone j), h.unique⟩
    exact hinv.setSi (Bool.not_eq_true _ ▸ hw) hclean
  · rw [if_neg hn]
    exact h.setSi (Bool.not_eq_true _ ▸ hw) hclean

theorem step_spec {s s' : State n} (h : s.Inv) {a : Act n} (hs : s.step a = some s') :
    s'.Inv ∧ (((∃ i, a = .reset i) ∨ s.Forward s') ↔ s.Covers a) := by
  cases a with
  | pull i k a_nvals =>
    obtain ⟨hinv, hf⟩ := step_pull h hs
    exact ⟨hinv, iff_of_true (.inr hf) trivial⟩
  | start i cmdline k a_nvals =>
    obtain ⟨hinv, hf⟩ := step_start h hs
    exact ⟨hinv, iff_of_true (.inr hf) trivial⟩
  | push i syncCookie =>
    obtain ⟨hinv, hf⟩ := step_push h hs
    exact ⟨hinv, iff_of_true (.inr hf) trivial⟩
  | pushed i success =>
    obtain ⟨hinv, hf⟩ := step_pushed h hs
    refine ⟨hinv, Iff.trans (or_iff_right ?_) hf⟩
    rintro ⟨j, hj⟩
    cases hj
  | reset i => exact ⟨step_reset h hs, iff_of_true (.inl ⟨i, rfl⟩) trivial⟩

theorem run_iff {s : State n} (h : s.Inv) (as : List (Act n)) : Monotone s as ↔ WritesCover s as := by
  induction as generalizing s with
  | nil => exact Iff.rfl
  | cons a as ih =>
    refine forall_congr' fun s' => imp_congr_right fun hs => ?_
    obtain ⟨hinv, hiff⟩ := step_spec h hs
    exact and_congr hiff (ih hinv)

/-- The shared cookie never goes back in a run exactly if each successful write covers what was pulled meanwhile. -/
theorem cs_cookie_monotone_iff (as : List (Act n)) : Monotone (init : State n) as ↔ WritesCover init as := run_iff init_inv as

/-- The first consumer writes what it got from SID 1. Meanwhile the second one takes over a local write under SID 2. -/
def lateWrite : List (Act 2) :=
  [.push 0 ⟨⟨0, 1, [(1, SyncCookie.firstCsn)]⟩, pairwise_singleton _ _, by decide⟩,
    .pull 1 laxClock (some [SyncCookie.otherCsn]), .pushed 0 true]

theorem contextCsns_otherCsn : contextCsns laxClock [SyncCookie.otherCsn] = [(2, SyncCookie.otherCsn)] := by
  have hfilter : [SyncCookie.otherCsn].filter (fun c => slapCsnVerifyFull laxClock c.text) = [SyncCookie.otherCsn] := by decide
  rw [contextCsns, hfilter, mergeSort_singleton, filterOutDups]
  rfl

theorem push_loses_pulled : ¬ Monotone (init : State 2) lateWrite := by
  intro h
  obtain ⟨-, h⟩ := h _ rfl
  obtain ⟨-, h⟩ := h _ rfl
  obtain ⟨⟨i, hi⟩ | h, -⟩ := h _ rfl
  · cases hi
  have hle := h 2
  change SyncCookie.tsAt (pullContextCsn ⟨⟨0, 0, []⟩, 0, true, []⟩ laxClock (some [SyncCookie.otherCsn])).cs_cookie 2 ≤
    SyncCookie.tsAt ⟨0, 0, [(1, SyncCookie.firstCsn)]⟩ 2 at hle
  have hpull : 0 < (slapCookiePull laxClock ⟨0, 0, []⟩ [SyncCookie.otherCsn]).2 := by
    simp [slapCookiePull, contextCsns_otherCsn, slapCsnsCompare, csnsCompareFrom, INT_MAX]
  rw [pullContextCsn_some hpull] at hle
  simp [slapCookiePull, contextCsns_otherCsn, slapCsnsCompare, csnsCompareFrom, INT_MAX, SyncCookie.tsAt, SyncCookie.at?,
    DupSort.find, SyncCookie.stamp] at hle

end State

end Sync
end ReOpenLDAP
