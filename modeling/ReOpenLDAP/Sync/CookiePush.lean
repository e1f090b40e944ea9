import ReOpenLDAP.Sync.CookieState

/-!
# Sync.CookiePush

`syncrepl_cookie_push` as one call, with the result of the write to the context entry.
-/

namespace ReOpenLDAP
namespace Sync

def LDAP_NO_SUCH_OBJECT : Int := 0x20

/-- What `bi_op_modify` and `bi_op_add` return, and the result that they report. -/
structure WriteResult where
  rc : Int
  sr_err : Int
deriving DecidableEq

/-- The database of a consumer: its two operations, for the new CSNs and the one that is queued, and `SLAP_SYNC_SUBENTRY`. -/
structure ContextDb where
  bi_op_modify : SyncCookie → Option Csn → WriteResult
  bi_op_add : SyncCookie → Option Csn → WriteResult
  subentry : Bool

def ContextDb.write (db : ContextDb) (sc : SyncCookie) (csn : Option Csn) : WriteResult :=
  let rs_modify := db.bi_op_modify sc csn
  if rs_modify.sr_err = LDAP_NO_SUCH_OBJECT ∧ db.subentry then db.bi_op_add sc csn else rs_modify

/-- What a call leaves behind. `rs_modify` is the result of its write, if it came to one. -/
structure Pushed where
  rc : Int
  cs : CookieState
  si : Consumer
  rs_modify : Option WriteResult

/-- `syncrepl_cookie_push` where no other consumer is at its write. -/
def syncreplCookiePush (db : ContextDb) (cs : CookieState) (si : Consumer) (syncCookie : SyncCookie) : Pushed :=
  if syncCookie.csns = [] then ⟨0, cs, si, none⟩
  else
    let (sc, lead) := cs.cs_cookie.slapCookieMerge syncCookie
    match lead with
    | none => ⟨0, cs, si, none⟩
    | some lead =>
      let si := { si with si_syncCookie := sc }
      let rs_modify := db.write si.si_syncCookie (si.si_syncCookie.csns[lead]?.map Prod.snd)
      if rs_modify.sr_err = 0 then
        let cs := { cs with cs_cookie := si.si_syncCookie, cs_age := cs.cs_age + 1, pulled := [] }
        ⟨rs_modify.rc, cs, { si with si_cookieAge := cs.cs_age }, some rs_modify⟩
      else ⟨rs_modify.rc, { cs with pulled := [] }, si, some rs_modify⟩

section

variable {db : ContextDb} {cs : CookieState} {si : Consumer} {syncCookie : SyncCookie} {r : WriteResult}

theorem push_idle (h : syncCookie.csns = [] ∨ (cs.cs_cookie.slapCookieMerge syncCookie).2 = none) :
    syncreplCookiePush db cs si syncCookie = ⟨0, cs, si, none⟩ := by
  unfold syncreplCookiePush
  by_cases hnil : syncCookie.csns = []
  · rw [if_pos hnil]
  · rw [if_neg hnil]
    dsimp only
    rw [h.resolve_left hnil]

theorem push_writes {lead : Nat} (hnil : syncCookie.csns ≠ []) (hlead : (cs.cs_cookie.slapCookieMerge syncCookie).2 = some lead) :
    (syncreplCookiePush db cs si syncCookie).rs_modify =
      some (db.write (cs.cs_cookie.slapCookieMerge syncCookie).1
        ((cs.cs_cookie.slapCookieMerge syncCookie).1.csns[lead]?.map Prod.snd)) := by
  unfold syncreplCookiePush
  rw [if_neg hnil]
  dsimp only
  rw [hlead]
  dsimp only
  split
  · rfl
  · rfl

theorem push_news (h : (syncreplCookiePush db cs si syncCookie).rs_modify = some r) :
    syncCookie.csns ≠ [] ∧ ∃ lead, (cs.cs_cookie.slapCookieMerge syncCookie).2 = some lead := by
  constructor
  · intro hnil
    rw [push_idle (.inl hnil)] at h
    cases h
  · cases hlead : (cs.cs_cookie.slapCookieMerge syncCookie).2 with
    | none =>
      rw [push_idle (.inr hlead)] at h
      cases h
    | some lead => exact ⟨lead, rfl⟩

theorem push_eq (h : (syncreplCookiePush db cs si syncCookie).rs_modify = some r) : syncreplCookiePush db cs si syncCookie =
    ⟨r.rc, if r.sr_err = 0 then { cs with cs_cookie := (cs.cs_cookie.slapCookieMerge syncCookie).1, cs_age := cs.cs_age + 1, pulled := [] }
        else { cs with pulled := [] },
      { si with si_syncCookie := (cs.cs_cookie.slapCookieMerge syncCookie).1,
                si_cookieAge := if r.sr_err = 0 then cs.cs_age + 1 else si.si_cookieAge }, some r⟩ := by
  obtain ⟨hnil, lead, hlead⟩ := push_news h
  rw [push_writes hnil hlead] at h
  unfold syncreplCookiePush
  rw [if_neg hnil]
  dsimp only
  rw [hlead]
  dsimp only
  rw [Option.some.inj h]
  split_ifs <;> rfl

end

theorem failed_push_ahead {db : ContextDb} {cs : CookieState} {si : Consumer} {syncCookie : SyncCookie} {r : WriteResult}
    (hcs : cs.cs_cookie.Verified) (hck : syncCookie.Verified)
    (h : (syncreplCookiePush db cs si syncCookie).rs_modify = some r) (herr : r.sr_err ≠ 0) :
    ∃ sid, (syncreplCookiePush db cs si syncCookie).cs.cs_cookie.tsAt sid <
      (syncreplCookiePush db cs si syncCookie).si.si_syncCookie.tsAt sid := by
  obtain ⟨-, lead, hlead⟩ := push_news h
  obtain ⟨p, hp, hadv, -⟩ : ∃ p ∈ syncCookie.csns, SyncCookie.Advances cs.cs_cookie p ∧ _ := by
    have hok := SyncCookie.merge_lead hcs hck
    rw [SyncCookie.LeadOk, hlead] at hok
    exact hok
  refine ⟨p.1, ?_⟩
  rw [push_eq h, if_neg herr]
  have hts : syncCookie.tsAt p.1 = p.2.ts := State.tsAt_of_mem hck hp
  rw [SyncCookie.merge_tsAt hcs hck, hts]
  refine lt_of_lt_of_le ?_ (le_max_right _ _)
  unfold SyncCookie.tsAt
  cases hat : cs.cs_cookie.at? p.1 with
  | none => exact WithBot.bot_lt_coe _
  | some old => exact WithBot.coe_lt_coe.mpr (hadv old hat)

def UnchangedByFailure (db : ContextDb) (cs : CookieState) (si : Consumer) (syncCookie : SyncCookie) : Prop :=
  ∀ r, (syncreplCookiePush db cs si syncCookie).rs_modify = some r → r.sr_err ≠ 0 →
    (syncreplCookiePush db cs si syncCookie).si.si_syncCookie = si.si_syncCookie ∧
    (syncreplCookiePush db cs si syncCookie).cs.cs_cookie = cs.cs_cookie ∧
    (syncreplCookiePush db cs si syncCookie).cs.cs_age = cs.cs_age ∧
    (syncreplCookiePush db cs si syncCookie).rc = r.sr_err

/-- It is so exactly where the consumer had the merged cookie before the call, and the operation returns what it reports. -/
theorem failed_push_unchanged_iff (db : ContextDb) (cs : CookieState) (si : Consumer) (syncCookie : SyncCookie) :
    UnchangedByFailure db cs si syncCookie ↔
      ∀ lead, syncCookie.csns ≠ [] → (cs.cs_cookie.slapCookieMerge syncCookie).2 = some lead →
        let sc := (cs.cs_cookie.slapCookieMerge syncCookie).1
        let r := db.write sc (sc.csns[lead]?.map Prod.snd)
        r.sr_err ≠ 0 → si.si_syncCookie = sc ∧ r.rc = r.sr_err := by
  constructor
  · intro h lead hnil hlead sc r herr
    have hr : (syncreplCookiePush db cs si syncCookie).rs_modify = some r := push_writes hnil hlead
    obtain ⟨hown, -, -, hrc⟩ := h r hr herr
    rw [push_eq hr] at hown hrc
    exact ⟨hown.symm, hrc⟩
  · intro h r hr herr
    obtain ⟨hnil, lead, hlead⟩ := push_news hr
    have hwrite := Option.some.inj ((push_writes hnil hlead).symm.trans hr)
    obtain ⟨hown, hrc⟩ := h lead hnil hlead (hwrite ▸ herr)
    rw [push_eq hr, if_neg herr]
    exact ⟨hown.symm, rfl, rfl, by rw [← hwrite]; exact hrc⟩

def refusing : ContextDb := ⟨fun _ _ => ⟨80, 80⟩, fun _ _ => ⟨80, 80⟩, false⟩

/-- The own cookie has the first CSN of SID 1 after a write that failed. -/
theorem failed_push_advances :
    let cs : CookieState := ⟨⟨0, 0, []⟩, 0, false, []⟩
    let si : Consumer := ⟨⟨0, 0, []⟩, 0, false, false⟩
    let syncCookie : SyncCookie := ⟨0, 1, [(1, SyncCookie.firstCsn)]⟩
    (syncreplCookiePush refusing cs si syncCookie).si.si_syncCookie = ⟨0, 0, [(1, SyncCookie.firstCsn)]⟩ ∧
      ¬ UnchangedByFailure refusing cs si syncCookie := by
  refine ⟨rfl, fun h => ?_⟩
  obtain ⟨hown, -⟩ := h ⟨80, 80⟩ rfl (by decide)
  exact absurd hown (by decide)

end Sync
end ReOpenLDAP
