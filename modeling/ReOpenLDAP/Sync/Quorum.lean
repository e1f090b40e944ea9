import Mathlib.Data.List.Forall2
import ReOpenLDAP.Lib.Run
import ReOpenLDAP.Sync.Csn

/-!
# Sync.Quorum

The quorum of a backend: its syncrepl links, the servers and links that are required, and the cached answer. Every
function here runs under `quorum_mutex`.
-/

namespace ReOpenLDAP
namespace Sync

open List

def QS_DIRTY : Int := 0

def QS_READY : Int := 3

/-- `struct present`: a syncrepl link. -/
structure Present (κ : Type) where
  key : κ
  rid : Int
  sid : Int
  status : Int
deriving DecidableEq

/-- The bits `QR_FLAG_DEMAND`, `QR_FLAG_RID` and `QR_FLAG_AUTO`. -/
structure ReqType where
  demand : Bool
  rid : Bool
  auto : Bool
deriving DecidableEq

def ReqType.maxId (type : ReqType) : Nat := if type.rid then SLAP_SYNC_RID_MAX else SLAP_SYNC_SID_MAX

def QR_VOTED_SID : ReqType := ⟨false, false, false⟩

def QR_VOTED_RID : ReqType := ⟨false, true, false⟩

def QR_DEMAND_RID : ReqType := { QR_VOTED_RID with auto := true }

def QR_DEMAND_SID : ReqType := { QR_VOTED_SID with demand := true }

/-- `struct requirment` -/
structure Requirement where
  type : ReqType
  id : Int
deriving DecidableEq

/-- `struct slap_quorum`, as far as the vote needs it. An empty list is a null pointer. `endStatus` is what stands in the
`status` of the entry that ends `qr_present`: nothing sets it. -/
structure Quorum (κ : Type) where
  present : List (Present κ)
  endStatus : Int
  requirements : List Requirement
  autoRids : Bool
  autoSids : Bool
  allLinks : Bool
  syncreplLimit : Int
deriving DecidableEq

variable {κ : Type}

def quorum (total wanna ready : Nat) : Bool :=
  let wanna := if total < wanna then total else wanna
  if wanna = 0 ∨ ready < (wanna + 2 - wanna % 2) / 2 then false else true

def Requirement.isFor (r : Requirement) (p : Present κ) : Bool := if r.type.rid then p.rid = r.id else p.sid = r.id

def Requirement.isSelf (serverId : Int) (r : Requirement) : Bool := !r.type.rid && r.id = serverId

structure Votes where
  wannaSids : Nat
  readySids : Nat
  wannaRids : Nat
  readyRids : Nat
  lack : Bool
deriving DecidableEq

namespace Quorum

def countReady (present : List (Present κ)) (r : Requirement) : Nat :=
  match present.find? r.isFor with
  | some p => if QS_READY ≤ p.status then 1 else 0
  | none => 0

/-- `!p || p->status < QS_READY` behind the search for a link. -/
def unready (q : Quorum κ) (r : Requirement) : Bool :=
  match q.present.find? r.isFor with
  | some p => p.status < QS_READY
  | none => q.present.isEmpty || q.endStatus < QS_READY

def voteRound (serverId : Int) (q : Quorum κ) (v : Votes) (r : Requirement) : Votes :=
  if r.isSelf serverId then v
  else
    let lack := v.lack || r.type.demand && q.unready r
    if r.type.rid then
      { v with wannaRids := v.wannaRids + 1, readyRids := v.readyRids + countReady q.present r, lack := lack }
    else { v with wannaSids := v.wannaSids + 1, readySids := v.readySids + countReady q.present r, lack := lack }

def votes (serverId : Int) (q : Quorum κ) : Votes := q.requirements.foldl (voteRound serverId q) ⟨0, 0, 0, 0, false⟩

def readyLinks (q : Quorum κ) : Nat := q.present.countP fun p => QS_READY ≤ p.status

def lazyUpdate (serverId : Int) (q : Quorum κ) : Int :=
  let total := q.present.length
  let state := if q.allLinks ∧ q.readyLinks < total then -1 else 1
  let v := q.votes serverId
  let state := if v.lack then -1 else state
  let state :=
    if 0 < state ∧ (v.wannaSids ≠ 0 ∨ v.wannaRids ≠ 0) then
      if quorum total v.wannaSids v.readySids || quorum total v.wannaRids v.readyRids then 1 else -1
    else state
  if q.autoSids ∧ 0 < state ∧ total ≠ 0 ∧ quorum total total v.wannaSids = false then -1 else state

/-! ## Requirements and links -/

/-- `require_append`, and whether it has changed something. -/
def requireAppend (q : Quorum κ) (type : ReqType) (id : Int) : Quorum κ × Bool :=
  match q.requirements.findIdx? fun r => r.id = id ∧ r.type.rid = type.rid with
  | some i =>
    if (q.requirements[i]?.any fun r => r.type.auto) ∧ type.auto = false then
      ({ q with requirements := q.requirements.set i ⟨type, id⟩ }, true)
    else (q, false)
  | none => ({ q with requirements := q.requirements ++ [⟨type, id⟩] }, true)

/-- `require_remove` of an automatic requirement. -/
def requireRemove (q : Quorum κ) (rid : Bool) (id : Int) : Quorum κ :=
  { q with requirements := q.requirements.eraseP fun r => r.id = id ∧ r.type.rid = rid ∧ r.type.auto = true }

/-- The loops of `require_auto_rids` and `require_auto_sids`. -/
def requireAll (q : Quorum κ) (type : ReqType) (ids : List Int) : Quorum κ × Bool :=
  ids.foldl (fun st id => ((st.1.requireAppend type id).1, st.2 || (st.1.requireAppend type id).2)) (q, false)

def requireAutoRids (q : Quorum κ) : Quorum κ × Bool :=
  if q.autoRids then (q, false)
  else { q with autoRids := true }.requireAll ⟨false, true, true⟩ (q.present.map Present.rid)

def requireAutoSids (q : Quorum κ) : Quorum κ × Bool :=
  if q.autoSids then (q, false)
  else { q with autoSids := true }.requireAll ⟨false, false, true⟩ ((q.present.map Present.sid).filter (-1 < ·))

variable [DecidableEq κ]

def notifySid (q : Quorum κ) (key : κ) (sid : Int) : Quorum κ × Bool :=
  match q.present.findIdx? fun p => p.key = key with
  | none => (q, false)
  | some i =>
    match q.present[i]? with
    | none => (q, false)
    | some p =>
      if p.sid = sid then (q, false)
      else
        let r := if q.autoSids ∧ -1 < p.sid then q.requireRemove false p.sid else q
        let r := if q.autoSids ∧ -1 < sid then (r.requireAppend ⟨false, false, true⟩ sid).1 else r
        ({ r with present := q.present.set i { p with sid := sid } }, true)

/-- `notify_status` on the links: the new list, and whether the answer has to be found again. -/
def notifyStatus (key : κ) (status : Int) : List (Present κ) → List (Present κ) × Bool
  | [] => ([], false)
  | p :: ps =>
    if p.key = key then ({ p with status := status } :: ps, decide (p.status < QS_READY) != decide (status < QS_READY))
    else (p :: (notifyStatus key status ps).1, (notifyStatus key status ps).2)

end Quorum

/-- `slap_serverID`, and `bd_quorum` and `bd_quorum_cache` of the backend. -/
structure QuorumState (κ : Type) where
  serverId : Int
  quorum : Option (Quorum κ)
  cache : Int
deriving DecidableEq

/-- A word of the configuration line: a key, or another text with the numbers that `lutil_atoi` and `lutil_atoix` read
in it. -/
inductive Word where
  | allLinks
  | autoSids
  | autoRids
  | voteSids
  | voteRids
  | requireSids
  | requireRids
  | limitConcurrentRefresh
  | other (dec hex : Option Int)
deriving DecidableEq

/-- The variable `type` of `config_quorum`. -/
inductive Mode where
  | none
  | limit
  | ids (type : ReqType)
deriving DecidableEq

def QR_SYNCREPL_MAX : Int := 15

namespace QuorumState

open Quorum

/-- What `quorum_be_init` makes. -/
def beInit : Quorum κ := ⟨[], 0, [], false, false, false, 0⟩

/-- One word of `config_quorum`: the quorum, the cache and the next `type`. There is none behind `return 1`. -/
def configWord (q : Quorum κ) (cache : Int) (mode : Mode) : Word → Quorum κ × Int × Option Mode
  | .allLinks => if q.allLinks then (q, cache, some .none) else ({ q with allLinks := true }, 0, some .none)
  | .autoSids => (q.requireAutoSids.1, if q.requireAutoSids.2 then 0 else cache, some .none)
  | .autoRids => (q.requireAutoRids.1, if q.requireAutoRids.2 then 0 else cache, some .none)
  | .voteSids => (q, cache, some (.ids QR_VOTED_SID))
  | .voteRids => (q, cache, some (.ids QR_VOTED_RID))
  | .requireSids => (q, cache, some (.ids QR_DEMAND_SID))
  | .requireRids => (q, cache, some (.ids QR_DEMAND_RID))
  | .limitConcurrentRefresh =>
    if q.syncreplLimit ≠ 0 then (q, cache, none) else ({ q with syncreplLimit := 1 }, cache, some .limit)
  | .other dec hex =>
    match mode with
    | .limit =>
      match dec with
      | none => (q, cache, none)
      | some n =>
        if n < 1 ∨ QR_SYNCREPL_MAX < n then (q, cache, none)
        else ({ q with syncreplLimit := n }, cache, some .none)
    | .none => (q, cache, none)
    | .ids type =>
      match dec.or hex with
      | none => (q, cache, none)
      | some id =>
        if id < 0 ∨ type.maxId < id then (q, cache, none)
        else if (q.requireAppend type id).2 then ((q.requireAppend type id).1, 0, some (.ids type))
        else (q, cache, none)

def configLoop (q : Quorum κ) (cache : Int) (mode : Mode) : List Word → Quorum κ × Int
  | [] => (q, cache)
  | w :: ws =>
    match configWord q cache mode w with
    | (q, cache, some mode) => configLoop q cache mode ws
    | (q, cache, none) => (q, cache)

/-- `config_quorum` with the words of a line. -/
def configQuorum (s : QuorumState κ) (words : List Word) : QuorumState κ :=
  let (q, cache) :=
    match s.quorum with
    | some q => configLoop q s.cache .none words
    | none => configLoop beInit 1 .none words
  { s with quorum := some q, cache := cache }

/-- `config_quorum` for `LDAP_MOD_DELETE`. -/
def configDelete (s : QuorumState κ) : QuorumState κ :=
  match s.quorum with
  | none => s
  | some q =>
    { s with
      quorum := some { q with requirements := [], autoRids := false, autoSids := false, allLinks := false, syncreplLimit := 0 }
      cache := if q.requirements = [] then s.cache else 1 }

/-- `quorum_notify_self_sid`, which is called when `slap_serverID` has been set. -/
def quorumNotifySelfSid (s : QuorumState κ) (sid : Int) : QuorumState κ :=
  { s with serverId := sid, cache := if s.quorum.isSome then 0 else s.cache }

def quorumNotifyCsn (s : QuorumState κ) (csnsid : Int) : QuorumState κ :=
  match s.quorum with
  | none => s
  | some q =>
    if q.autoSids then
      let r := q.requireAppend ⟨false, false, true⟩ csnsid
      { s with quorum := some r.1, cache := if r.2 then 0 else s.cache }
    else s

def quorumQuery (s : QuorumState κ) : Bool × QuorumState κ :=
  if s.cache = 0 then
    let snap := match s.quorum with
      | some q => q.lazyUpdate s.serverId
      | none => 1
    (0 < snap, { s with cache := snap })
  else (0 < s.cache, s)

variable [DecidableEq κ]

/-- `quorum_add_rid` to a quorum that exists. `junk` is what the new memory holds. -/
def addLink (q : Quorum κ) (cache : Int) (key : κ) (rid junk : Int) : Quorum κ × Int :=
  if q.present.any fun p => p.key = key then (q, cache)
  else
    let link : Present κ := ⟨key, rid, -1, QS_DIRTY⟩
    let q := { q with present := q.present ++ [link], endStatus := junk }
    if q.autoRids then
      let r := q.requireAppend ⟨false, true, true⟩ rid
      (r.1, if r.2 then 0 else cache)
    else (q, cache)

def quorumAddRid (s : QuorumState κ) (key : κ) (rid junk : Int) : QuorumState κ :=
  let (q, cache) :=
    match s.quorum with
    | some q => addLink q s.cache key rid junk
    | none => addLink beInit 1 key rid junk
  { s with quorum := some q, cache := cache }

def quorumRemoveRid (s : QuorumState κ) (key : κ) : QuorumState κ :=
  match s.quorum with
  | none => s
  | some q =>
    match q.present.find? fun p => p.key = key with
    | none => s
    | some p =>
      let r := if -1 < p.sid ∧ q.autoSids then q.requireRemove false p.sid else q
      let r := if q.autoRids then r.requireRemove true p.rid else r
      { s with quorum := some { r with present := q.present.eraseP fun p => p.key = key }, cache := 0 }

def quorumNotifySid (s : QuorumState κ) (key : κ) (sid : Int) : QuorumState κ :=
  match s.quorum with
  | none => s
  | some q => { s with quorum := some (q.notifySid key sid).1, cache := if (q.notifySid key sid).2 then 0 else s.cache }

def quorumNotifyStatus (s : QuorumState κ) (key : κ) (status : Int) : QuorumState κ :=
  match s.quorum with
  | none => s
  | some q =>
    let r := notifyStatus key status q.present
    { s with quorum := some { q with present := r.1 }, cache := if r.2 then 0 else s.cache }

end QuorumState

inductive QuorumAct (κ : Type) where
  | config (words : List Word)
  | delete
  | addRid (key : κ) (rid junk : Int)
  | removeRid (key : κ)
  | notifySid (key : κ) (sid : Int)
  | notifyStatus (key : κ) (status : Int)
  | notifyCsn (csnsid : Int)
  | notifySelfSid (sid : Int)
  | query

namespace QuorumState

variable [DecidableEq κ]

def act (s : QuorumState κ) : QuorumAct κ → QuorumState κ
  | .config words => s.configQuorum words
  | .delete => s.configDelete
  | .addRid key rid junk => s.quorumAddRid key rid junk
  | .removeRid key => s.quorumRemoveRid key
  | .notifySid key sid => s.quorumNotifySid key sid
  | .notifyStatus key status => s.quorumNotifyStatus key status
  | .notifyCsn csnsid => s.quorumNotifyCsn csnsid
  | .notifySelfSid sid => s.quorumNotifySelfSid sid
  | .query => s.quorumQuery.2

end QuorumState

/-! ## What changes the vote -/

namespace Quorum

def SameVote (p p' : Present κ) : Prop := p.rid = p'.rid ∧ p.sid = p'.sid ∧ (p.status < QS_READY ↔ p'.status < QS_READY)

theorem quorum_iff {total wanna ready : Nat} :
    quorum total wanna ready = true ↔ 0 < min wanna total ∧ min wanna total / 2 < ready := by
  unfold quorum
  dsimp only
  split_ifs with h₁ h₂ h₂ <;> simp only [true_iff, false_iff] <;> omega

structure Won (serverId : Int) (q : Quorum κ) : Prop where
  links : q.allLinks = true → q.present.length ≤ q.readyLinks
  demands : (q.votes serverId).lack = false
  enough : ((q.votes serverId).wannaSids = 0 ∧ (q.votes serverId).wannaRids = 0) ∨
    quorum q.present.length (q.votes serverId).wannaSids (q.votes serverId).readySids = true ∨
    quorum q.present.length (q.votes serverId).wannaRids (q.votes serverId).readyRids = true
  known : q.autoSids = true → q.present ≠ [] →
    quorum q.present.length q.present.length (q.votes serverId).wannaSids = true

theorem won_iff {serverId : Int} {q : Quorum κ} :
    q.Won serverId ↔ ¬ (q.allLinks = true ∧ q.readyLinks < q.present.length) ∧ ¬ (q.votes serverId).lack = true ∧
      (¬ ((q.votes serverId).wannaSids ≠ 0 ∨ (q.votes serverId).wannaRids ≠ 0) ∨
        (quorum q.present.length (q.votes serverId).wannaSids (q.votes serverId).readySids ||
          quorum q.present.length (q.votes serverId).wannaRids (q.votes serverId).readyRids) = true) ∧
      ¬ (q.autoSids = true ∧ q.present.length ≠ 0 ∧
        quorum q.present.length q.present.length (q.votes serverId).wannaSids = false) := by
  constructor
  · intro h
    refine ⟨?_, by simp [h.demands], ?_, ?_⟩
    · intro ⟨ha, hlt⟩
      exact absurd (h.links ha) (by omega)
    · rw [Bool.or_eq_true]
      exact h.enough.imp (by omega) id
    · intro ⟨ha, hne, hq⟩
      exact absurd (h.known ha (by simpa using hne)) (by simp [hq])
  · intro ⟨hl, hd, he, hk⟩
    rw [Bool.or_eq_true] at he
    refine ⟨?_, by simpa using hd, he.imp (by omega) id, ?_⟩
    · intro ha
      exact not_lt.mp fun hlt => hl ⟨ha, hlt⟩
    · intro ha hne
      exact Bool.not_eq_false _ ▸ fun hq => hk ⟨ha, by simpa using hne, hq⟩

theorem lazyUpdate_cases (serverId : Int) (q : Quorum κ) :
    (q.Won serverId ∧ q.lazyUpdate serverId = 1) ∨ (¬ q.Won serverId ∧ q.lazyUpdate serverId = -1) := by
  rw [won_iff]
  unfold lazyUpdate
  have hlast : ∀ state : Int, 0 < state →
      (¬ (q.autoSids = true ∧ q.present.length ≠ 0 ∧
          quorum q.present.length q.present.length (q.votes serverId).wannaSids = false) ∧
        (if q.autoSids = true ∧ 0 < state ∧ q.present.length ≠ 0 ∧
          quorum q.present.length q.present.length (q.votes serverId).wannaSids = false then -1 else state) = state) ∨
      (¬ ¬ (q.autoSids = true ∧ q.present.length ≠ 0 ∧
          quorum q.present.length q.present.length (q.votes serverId).wannaSids = false) ∧
        (if q.autoSids = true ∧ 0 < state ∧ q.present.length ≠ 0 ∧
          quorum q.present.length q.present.length (q.votes serverId).wannaSids = false then -1 else state) = -1) := by
    intro state hstate
    by_cases hk : q.autoSids = true ∧ q.present.length ≠ 0 ∧
      quorum q.present.length q.present.length (q.votes serverId).wannaSids = false
    · exact .inr ⟨not_not_intro hk, if_pos ⟨hk.1, hstate, hk.2⟩⟩
    · exact .inl ⟨hk, if_neg fun h => hk ⟨h.1, h.2.2⟩⟩
  by_cases hlinks : q.allLinks = true ∧ q.readyLinks < q.present.length
  · simp [hlinks]
  · by_cases hlack : (q.votes serverId).lack = true
    · simp [hlack]
    · by_cases hwanna : (q.votes serverId).wannaSids ≠ 0 ∨ (q.votes serverId).wannaRids ≠ 0
      · by_cases hvotes : (quorum q.present.length (q.votes serverId).wannaSids (q.votes serverId).readySids ||
          quorum q.present.length (q.votes serverId).wannaRids (q.votes serverId).readyRids) = true
        · simpa [hlinks, hlack, hwanna, hvotes] using hlast 1 (by omega)
        · simp [hlinks, hlack, hwanna, hvotes]
      · simpa [hlinks, hlack, hwanna] using hlast 1 (by omega)

theorem lazyUpdate_congr {serverId serverId' : Int} {q q' : Quorum κ} (h : q'.Won serverId' ↔ q.Won serverId) :
    q'.lazyUpdate serverId' = q.lazyUpdate serverId := by
  obtain ⟨hw, heq⟩ | ⟨hw, heq⟩ := lazyUpdate_cases serverId q
  · obtain ⟨-, heq'⟩ | ⟨hw', -⟩ := lazyUpdate_cases serverId' q'
    · rw [heq, heq']
    · exact absurd (h.mpr hw) hw'
  · obtain ⟨hw', -⟩ | ⟨-, heq'⟩ := lazyUpdate_cases serverId' q'
    · exact absurd (h.mp hw') hw
    · rw [heq, heq']

theorem find?_sameVote {l l' : List (Present κ)} (h : List.Forall₂ SameVote l l') (r : Requirement) :
    (l.find? r.isFor = none ∧ l'.find? r.isFor = none) ∨
    ∃ p p', l.find? r.isFor = some p ∧ l'.find? r.isFor = some p' ∧ SameVote p p' := by
  induction h with
  | nil => exact .inl ⟨rfl, rfl⟩
  | @cons p p' l l' hp _ ih =>
    have hfor : r.isFor p = r.isFor p' := by
      unfold Requirement.isFor
      rw [hp.1, hp.2.1]
    cases hr : r.isFor p with
    | true =>
      rw [List.find?_cons_of_pos hr, List.find?_cons_of_pos (hfor ▸ hr)]
      exact .inr ⟨p, p', rfl, rfl, hp⟩
    | false =>
      rw [List.find?_cons_of_neg (by simp [hr]), List.find?_cons_of_neg (by simp [← hfor, hr])]
      exact ih

theorem readyLinks_sameVote {l l' : List (Present κ)} (h : List.Forall₂ SameVote l l') :
    (l.countP fun p => QS_READY ≤ p.status) = l'.countP fun p => QS_READY ≤ p.status := by
  induction h with
  | nil => rfl
  | cons hp _ ih =>
    have hready : QS_READY ≤ _ ↔ QS_READY ≤ _ := not_iff_not.mp (by simpa only [not_le] using hp.2.2)
    rw [countP_cons, countP_cons, ih]
    simp only [hready]

theorem votes_congr {serverId : Int} {q q' : Quorum κ} (hreq : q'.requirements = q.requirements)
    (hround : ∀ r ∈ q.requirements, ∀ v, voteRound serverId q' v r = voteRound serverId q v r) :
    q'.votes serverId = q.votes serverId := by
  unfold votes
  rw [hreq]
  exact foldl_ext _ _ _ fun v r hr => hround r hr v

theorem lazyUpdate_sameVote {serverId : Int} {q : Quorum κ} {l : List (Present κ)} (h : List.Forall₂ SameVote q.present l) :
    { q with present := l }.lazyUpdate serverId = q.lazyUpdate serverId := by
  have hvotes : { q with present := l }.votes serverId = q.votes serverId := by
    refine votes_congr rfl ?_
    intro r _ v
    have hempty : l.isEmpty = q.present.isEmpty := by
      rw [Bool.eq_iff_iff, isEmpty_iff_length_eq_zero, isEmpty_iff_length_eq_zero, h.length_eq]
    have hready : countReady l r = countReady q.present r ∧ { q with present := l }.unready r = q.unready r := by
      unfold countReady unready
      obtain ⟨hn, hn'⟩ | ⟨p, p', hp, hp', hsame⟩ := find?_sameVote h r
      · simp only [hn, hn', hempty, and_self]
      · have hle : QS_READY ≤ p'.status ↔ QS_READY ≤ p.status := not_iff_not.mp (by simpa only [not_le] using hsame.2.2.symm)
        simp only [hp, hp', hle, hsame.2.2, and_self]
    unfold voteRound
    rw [hready.1, hready.2]
  have hlinks : { q with present := l }.readyLinks = q.readyLinks := (readyLinks_sameVote h).symm
  unfold lazyUpdate
  rw [hvotes, hlinks, ← h.length_eq]

variable [DecidableEq κ]

theorem notifyStatus_sameVote {key : κ} {status : Int} {l : List (Present κ)} (h : (notifyStatus key status l).2 = false) :
    List.Forall₂ SameVote l (notifyStatus key status l).1 := by
  induction l with
  | nil => exact .nil
  | cons p l ih =>
    have hrefl : ∀ l : List (Present κ), List.Forall₂ SameVote l l := fun l =>
      List.forall₂_same.mpr fun _ _ => ⟨rfl, rfl, Iff.rfl⟩
    unfold notifyStatus at h ⊢
    if hk : p.key = key then
      rw [if_pos hk] at h ⊢
      exact .cons ⟨rfl, rfl, by simpa using h⟩ (hrefl l)
    else
      rw [if_neg hk] at h ⊢
      exact .cons ⟨rfl, rfl, Iff.rfl⟩ (ih h)

end Quorum

section

open Quorum

/-- Every server or link that is demanded has a link. The search for another one ends at an entry that is not set. -/
def Linked (serverId : Int) (q : Quorum κ) : Prop :=
  ∀ r ∈ q.requirements, r.type.demand = true → r.isSelf serverId = false → ∃ p ∈ q.present, r.isFor p = true

/-- The link does not change the vote of a quorum that is lacking, or has no more requirements than links. -/
def Spare (serverId cache : Int) (q : Quorum κ) : Prop :=
  Linked serverId q ∧ (cache < 0 ∨ q.allLinks = false ∧
    (q.votes serverId).wannaSids ≤ q.present.length ∧ (q.votes serverId).wannaRids ≤ q.present.length ∧
    (q.autoSids = true → quorum (q.present.length + 1) (q.present.length + 1) (q.votes serverId).wannaSids = true))

variable {serverId : Int} {q : Quorum κ} {link : Present κ} {junk : Int}

theorem votes_addLink (hlinked : Linked serverId q) (hlink : link.status < QS_READY) :
    { q with present := q.present ++ [link], endStatus := junk }.votes serverId = q.votes serverId := by
  refine votes_congr rfl ?_
  intro r hr v
  unfold voteRound
  cases hself : r.isSelf serverId with
  | true => rfl
  | false =>
    have hcount : countReady (q.present ++ [link]) r = countReady q.present r := by
      unfold countReady
      rw [List.find?_append]
      cases hfind : q.present.find? r.isFor with
      | some p => rfl
      | none =>
        cases hlast : r.isFor link with
        | true =>
          rw [Option.none_or, List.find?_cons_of_pos hlast]
          exact if_neg (not_le.mpr hlink)
        | false =>
          rw [Option.none_or, List.find?_cons_of_neg (by simp [hlast])]
          rfl
    have hlack : (r.type.demand && { q with present := q.present ++ [link], endStatus := junk }.unready r) =
        (r.type.demand && q.unready r) := by
      cases hd : r.type.demand with
      | false => rfl
      | true =>
        obtain ⟨p, hp, hfor⟩ := hlinked r hr hd hself
        obtain ⟨p', hfind⟩ := Option.isSome_iff_exists.mp (List.find?_isSome.mpr ⟨p, hp, hfor⟩)
        unfold unready
        rw [List.find?_append, hfind]
        rfl
    dsimp only
    rw [hcount, hlack]

theorem readies_nil (hnil : q.present = []) : (q.votes serverId).readySids = 0 ∧ (q.votes serverId).readyRids = 0 := by
  have hrun : ∀ (rs : List Requirement) (v : Votes), v.readySids = 0 ∧ v.readyRids = 0 →
      (rs.foldl (voteRound serverId q) v).readySids = 0 ∧ (rs.foldl (voteRound serverId q) v).readyRids = 0 := by
    intro rs
    induction rs with
    | nil => exact fun _ h => h
    | cons r rs ih =>
      intro v hv
      refine ih _ ?_
      have hcount : countReady q.present r = 0 := by
        rw [hnil]
        rfl
      unfold voteRound
      rw [hcount]
      split_ifs
      · exact hv
      · exact hv
      · exact hv
  exact hrun q.requirements _ ⟨rfl, rfl⟩

theorem quorum_less {total wanna ready : Nat} (h : quorum (total + 1) wanna ready = true) (hready : total = 0 → ready = 0) :
    quorum total wanna ready = true := by
  rw [quorum_iff] at h ⊢
  omega

theorem quorum_more {total wanna ready : Nat} (h : quorum total wanna ready = true) (hwanna : wanna ≤ total) :
    quorum (total + 1) wanna ready = true := by
  rw [quorum_iff] at h ⊢
  omega

theorem lazyUpdate_addLink (hlink : link.status < QS_READY) (h : Spare serverId (q.lazyUpdate serverId) q) :
    { q with present := q.present ++ [link], endStatus := junk }.lazyUpdate serverId = q.lazyUpdate serverId := by
  obtain ⟨hlinked, hcase⟩ := h
  have hvotes := @votes_addLink _ _ _ _ junk hlinked hlink
  have hlen : (q.present ++ [link]).length = q.present.length + 1 := by simp
  have hready : { q with present := q.present ++ [link], endStatus := junk }.readyLinks = q.readyLinks := by
    unfold readyLinks
    dsimp only
    rw [countP_append, countP_singleton, if_neg (by simpa using hlink), Nat.add_zero]
  obtain ⟨hwon, heq⟩ | ⟨hlost, heq⟩ := lazyUpdate_cases serverId q
  · refine lazyUpdate_congr ⟨fun _ => hwon, fun _ => ?_⟩
    obtain hneg | ⟨hall, hs, hr, hauto⟩ := hcase
    · rw [heq] at hneg
      exact absurd hneg (by decide)
    · refine ⟨fun ha => absurd ha (by simp [hall]), by rw [hvotes]; exact hwon.demands, ?_, ?_⟩
      · rw [hvotes]
        dsimp only
        rw [hlen]
        exact hwon.enough.imp id (Or.imp (quorum_more · hs) (quorum_more · hr))
      · rw [hvotes]
        dsimp only
        rw [hlen]
        exact fun ha _ => hauto ha
  · refine lazyUpdate_congr ⟨fun hwon => absurd ?_ hlost, fun hwon => absurd hwon hlost⟩
    have hzero : q.present.length = 0 → (q.votes serverId).readySids = 0 ∧ (q.votes serverId).readyRids = 0 :=
      fun h0 => readies_nil (eq_nil_of_length_eq_zero h0)
    obtain ⟨hl, hd, he, hk⟩ := hwon
    rw [hvotes] at hd he hk
    rw [hready] at hl
    dsimp only at hl he hk
    rw [hlen] at hl he hk
    refine ⟨fun ha => by have := hl ha; omega, hd, ?_, ?_⟩
    · refine he.imp id (Or.imp (quorum_less · fun h0 => (hzero h0).1) (quorum_less · fun h0 => (hzero h0).2))
    · intro ha hne
      have hpos : 0 < q.present.length := List.length_pos_iff.mpr hne
      have hmore := hk ha (by simp)
      rw [quorum_iff] at hmore ⊢
      omega

theorem requireAppend_false {type : ReqType} {id : Int} (h : (q.requireAppend type id).2 = false) :
    (q.requireAppend type id).1 = q ∧ ∃ r ∈ q.requirements, r.id = id ∧ r.type.rid = type.rid := by
  unfold requireAppend at h ⊢
  split at h
  · rename_i i hfind
    split_ifs at h with hauto
    rw [if_neg hauto]
    obtain ⟨hlt, hi, -⟩ := List.findIdx?_eq_some_iff_getElem.mp hfind
    exact ⟨rfl, q.requirements[i], getElem_mem hlt, by simpa using hi⟩
  · cases h

theorem requireAll_cons (q : Quorum κ) (type : ReqType) (id : Int) (ids : List Int) : q.requireAll type (id :: ids) =
    (((q.requireAppend type id).1.requireAll type ids).1,
      (q.requireAppend type id).2 || ((q.requireAppend type id).1.requireAll type ids).2) := by
  have hflag : ∀ (ids : List Int) (q : Quorum κ) (b : Bool),
      ids.foldl (fun st id => ((st.1.requireAppend type id).1, st.2 || (st.1.requireAppend type id).2)) (q, b) =
        ((q.requireAll type ids).1, b || (q.requireAll type ids).2) := by
    intro ids
    induction ids with
    | nil => exact fun q b => by simp [requireAll]
    | cons id ids ih =>
      intro q b
      have hcons : q.requireAll type (id :: ids) = _ := ih (q.requireAppend type id).1 (false || (q.requireAppend type id).2)
      rw [hcons, foldl_cons, ih, Bool.false_or, Bool.or_assoc]
  exact hflag ids _ _

theorem requireAll_false {type : ReqType} {ids : List Int} (h : (q.requireAll type ids).2 = false) :
    (q.requireAll type ids).1 = q ∧ ∀ id ∈ ids, ∃ r ∈ q.requirements, r.id = id ∧ r.type.rid = type.rid := by
  induction ids with
  | nil => exact ⟨rfl, by simp⟩
  | cons id ids ih =>
    rw [requireAll_cons] at h ⊢
    obtain ⟨happ, hall⟩ := Bool.or_eq_false_iff.mp h
    obtain ⟨hq, hr⟩ := requireAppend_false happ
    rw [hq] at hall ⊢
    exact ⟨(ih hall).1, List.forall_mem_cons.mpr ⟨hr, (ih hall).2⟩⟩

end

namespace QuorumState

open Quorum

/-- What `quorum_query` has to return. -/
def vote (s : QuorumState κ) : Int :=
  match s.quorum with
  | some q => q.lazyUpdate s.serverId
  | none => 1

def Fresh (s : QuorumState κ) : Prop := s.cache ≠ 0 → s.cache = s.vote

/-- `auto-sids` without a new requirement: the flag was set, or the answer does not depend on it. -/
def AutoSidsOk (serverId cache : Int) (q : Quorum κ) : Prop :=
  q.autoSids = true ∨ cache ≤ 0 ∨ q.present = [] ∨
  (∃ p ∈ q.present, -1 < p.sid ∧ ∀ r ∈ q.requirements, r.type.rid = false → r.id ≠ p.sid) ∨
  Sync.quorum q.present.length q.present.length (q.votes serverId).wannaSids = true

def ConfigOk (serverId : Int) (q : Quorum κ) (cache : Int) (mode : Mode) : List Word → Prop
  | [] => True
  | w :: ws =>
    (w = .autoSids → AutoSidsOk serverId cache q) ∧
      match configWord q cache mode w with
      | (q, cache, some mode) => ConfigOk serverId q cache mode ws
      | _ => True

variable [DecidableEq κ]

/-- A new link: nothing is cached, or it brings a requirement, or the vote does not depend on it. -/
def AddOk (serverId cache : Int) (q : Quorum κ) (key : κ) (rid : Int) : Prop :=
  cache = 0 ∨ (∃ p ∈ q.present, p.key = key) ∨
  (q.autoRids = true ∧ ∀ r ∈ q.requirements, r.type.rid = true → r.id ≠ rid) ∨ Spare serverId cache q

def Harmless (s : QuorumState κ) : QuorumAct κ → Prop
  | .config words =>
    match s.quorum with
    | some q => ConfigOk s.serverId q s.cache .none words
    | none => True
  | .delete =>
    match s.quorum with
    | some q => q.requirements ≠ [] ∨ 0 ≤ s.cache
    | none => True
  | .addRid key rid _ =>
    match s.quorum with
    | some q => AddOk s.serverId s.cache q key rid
    | none => True
  | _ => True

section

variable {serverId cache : Int} {q : Quorum κ}

omit [DecidableEq κ] in
theorem lazyUpdate_autoSids (hfresh : cache ≠ 0 → cache = q.lazyUpdate serverId) (hok : AutoSidsOk serverId cache q)
    (hsame : q.requireAutoSids.2 = false) (hc : cache ≠ 0) : cache = q.requireAutoSids.1.lazyUpdate serverId := by
  unfold requireAutoSids at hsame ⊢
  if hauto : q.autoSids = true then
    rw [if_pos hauto]
    exact hfresh hc
  else
    rw [if_neg hauto] at hsame ⊢
    obtain ⟨hq, hall⟩ := requireAll_false hsame
    rw [hq]
    have hvotes : { q with autoSids := true }.votes serverId = q.votes serverId := rfl
    have hdrop : { q with autoSids := true }.Won serverId → q.Won serverId :=
      fun h => ⟨h.links, h.demands, h.enough, fun ha => absurd ha hauto⟩
    refine (hfresh hc).trans (lazyUpdate_congr ⟨?_, hdrop⟩)
    intro hwon
    refine ⟨hwon.links, hwon.demands, hwon.enough, ?_⟩
    intro _ hne
    obtain h | h | h | ⟨p, hp, hsid, hnew⟩ | h := hok
    · exact absurd h hauto
    · have hone : q.lazyUpdate serverId = 1 := by
        obtain ⟨-, heq⟩ | ⟨hlost, -⟩ := lazyUpdate_cases serverId q
        · exact heq
        · exact absurd hwon hlost
      rw [hfresh hc, hone] at h
      exact absurd h (by decide)
    · exact absurd h hne
    · obtain ⟨r, hr, hid, hrid⟩ :=
        hall p.sid (List.mem_filter.mpr ⟨List.mem_map.mpr ⟨p, hp, rfl⟩, by simpa using hsid⟩)
      exact absurd hid (hnew r hr hrid)
    · exact hvotes ▸ h

omit [DecidableEq κ] in
theorem lazyUpdate_autoRids (hsame : q.requireAutoRids.2 = false) :
    q.requireAutoRids.1.lazyUpdate serverId = q.lazyUpdate serverId := by
  unfold requireAutoRids at hsame ⊢
  if hauto : q.autoRids = true then
    rw [if_pos hauto]
  else
    rw [if_neg hauto] at hsame ⊢
    rw [(requireAll_false hsame).1]
    rfl

omit [DecidableEq κ] in
theorem configWord_fresh {mode : Mode} {w : Word} (hfresh : cache ≠ 0 → cache = q.lazyUpdate serverId)
    (hok : w = .autoSids → AutoSidsOk serverId cache q) (hc : (configWord q cache mode w).2.1 ≠ 0) :
    (configWord q cache mode w).2.1 = (configWord q cache mode w).1.lazyUpdate serverId := by
  cases w with
  | allLinks =>
    simp only [configWord] at hc ⊢
    split_ifs at hc ⊢ with h
    · exact hfresh hc
    · exact absurd rfl hc
  | autoSids =>
    simp only [configWord] at hc ⊢
    cases hch : q.requireAutoSids.2 with
    | true =>
      rw [hch] at hc
      exact absurd rfl hc
    | false =>
      rw [hch] at hc
      exact lazyUpdate_autoSids hfresh (hok rfl) hch hc
  | autoRids =>
    simp only [configWord] at hc ⊢
    cases hch : q.requireAutoRids.2 with
    | true =>
      rw [hch] at hc
      exact absurd rfl hc
    | false =>
      rw [hch] at hc
      exact (hfresh hc).trans (lazyUpdate_autoRids hch).symm
  | voteSids => exact hfresh hc
  | voteRids => exact hfresh hc
  | requireSids => exact hfresh hc
  | requireRids => exact hfresh hc
  | limitConcurrentRefresh =>
    simp only [configWord] at hc ⊢
    split_ifs at hc ⊢
    · exact hfresh hc
    · exact hfresh hc
  | other dec hex =>
    simp only [configWord] at hc ⊢
    split at hc
    · split at hc
      · exact hfresh hc
      · split_ifs at hc ⊢
        · exact hfresh hc
        · exact hfresh hc
    · exact hfresh hc
    · split at hc
      · exact hfresh hc
      · split_ifs at hc ⊢
        · exact hfresh hc
        · exact absurd rfl hc
        · exact hfresh hc

omit [DecidableEq κ] in
theorem configLoop_fresh {mode : Mode} {words : List Word} (hfresh : cache ≠ 0 → cache = q.lazyUpdate serverId)
    (hok : ConfigOk serverId q cache mode words) (hc : (configLoop q cache mode words).2 ≠ 0) :
    (configLoop q cache mode words).2 = (configLoop q cache mode words).1.lazyUpdate serverId := by
  induction words generalizing q cache mode with
  | nil => exact hfresh hc
  | cons w ws ih =>
    have hword := fun hc => @configWord_fresh _ serverId cache q mode w hfresh hok.1 hc
    have hrest := hok.2
    unfold configLoop at hc ⊢
    revert hword hrest hc
    cases configWord q cache mode w with
    | mk q' r =>
      obtain ⟨cache', mode'⟩ := r
      cases mode' with
      | none => exact fun hword _ hc => hword hc
      | some mode' => exact fun hword hrest hc => ih hword hrest hc

end

omit [DecidableEq κ] in
theorem configOk_nil {serverId cache : Int} {q : Quorum κ} {mode : Mode} (words : List Word) (hnil : q.present = []) :
    ConfigOk serverId q cache mode words := by
  induction words generalizing q cache mode with
  | nil => trivial
  | cons w ws ih =>
    have hkeep : (configWord q cache mode w).1.present = [] := by
      have happ : ∀ (q : Quorum κ) (type : ReqType) (id : Int), (q.requireAppend type id).1.present = q.present := by
        intro q type id
        unfold requireAppend
        split
        · split_ifs <;> rfl
        · rfl
      cases w with
      | other dec hex =>
        simp only [configWord]
        split
        · split
          · exact hnil
          · split_ifs <;> exact hnil
        · exact hnil
        · split
          · exact hnil
          · split_ifs
            · exact hnil
            · exact (happ _ _ _).trans hnil
            · exact hnil
      | autoSids =>
        simp only [configWord, requireAutoSids, hnil]
        split_ifs
        · exact hnil
        · rfl
      | autoRids =>
        simp only [configWord, requireAutoRids, hnil]
        split_ifs
        · exact hnil
        · rfl
      | allLinks =>
        simp only [configWord]
        split_ifs <;> exact hnil
      | limitConcurrentRefresh =>
        simp only [configWord]
        split_ifs <;> exact hnil
      | _ => exact hnil
    refine ⟨fun _ => .inr (.inr (.inl hnil)), ?_⟩
    revert hkeep
    cases configWord q cache mode w with
    | mk q' r =>
      obtain ⟨cache', mode'⟩ := r
      cases mode' with
      | none => exact fun _ => trivial
      | some mode' => exact fun hkeep => ih hkeep

theorem addLink_fresh {serverId cache : Int} {q : Quorum κ} {key : κ} {rid junk : Int}
    (hfresh : cache ≠ 0 → cache = q.lazyUpdate serverId) (hok : AddOk serverId cache q key rid)
    (hc : (addLink q cache key rid junk).2 ≠ 0) :
    (addLink q cache key rid junk).2 = (addLink q cache key rid junk).1.lazyUpdate serverId := by
  unfold addLink at hc ⊢
  if hknown : (q.present.any fun p => p.key = key) = true then
    rw [if_pos hknown] at hc ⊢
    exact hfresh hc
  else
    have hlink : (⟨key, rid, -1, QS_DIRTY⟩ : Present κ).status < QS_READY := by
      show QS_DIRTY < QS_READY
      decide
    rw [if_neg hknown] at hc ⊢
    dsimp only at hc ⊢
    generalize (⟨key, rid, -1, QS_DIRTY⟩ : Present κ) = link at hlink hc ⊢
    have hadd : cache ≠ 0 → Spare serverId cache q →
        cache = { q with present := q.present ++ [link], endStatus := junk }.lazyUpdate serverId := by
      intro hcache hspare
      have heq := hfresh hcache
      exact heq.trans (lazyUpdate_addLink hlink (heq ▸ hspare)).symm
    if hauto : q.autoRids = true then
      rw [if_pos hauto] at hc ⊢
      dsimp only at hc ⊢
      cases hch : ({ q with present := q.present ++ [link], endStatus := junk }.requireAppend ⟨false, true, true⟩ rid).2 with
      | true =>
        rw [hch] at hc
        exact absurd rfl hc
      | false =>
        obtain ⟨hq, r, hr, hid, hrid⟩ := requireAppend_false hch
        rw [hch] at hc
        rw [hq]
        obtain h | ⟨p, hp, hkey⟩ | ⟨-, hnew⟩ | h := hok
        · exact absurd h hc
        · exact absurd (List.any_eq_true.mpr ⟨p, hp, by simpa using hkey⟩) hknown
        · exact absurd hid (hnew r hr hrid)
        · exact hadd hc h
    else
      rw [if_neg hauto] at hc ⊢
      obtain h | ⟨p, hp, hkey⟩ | ⟨h, -⟩ | h := hok
      · exact absurd h hc
      · exact absurd (List.any_eq_true.mpr ⟨p, hp, by simpa using hkey⟩) hknown
      · exact absurd h hauto
      · exact hadd hc h

omit [DecidableEq κ] in
theorem lazyUpdate_idle {serverId : Int} {q : Quorum κ} (hreq : q.requirements = []) (hsids : q.autoSids = false)
    (hall : q.allLinks = false) : q.lazyUpdate serverId = 1 := by
  have hvotes : q.votes serverId = ⟨0, 0, 0, 0, false⟩ := by
    unfold votes
    rw [hreq]
    rfl
  have hwon : q.Won serverId := by
    refine ⟨fun h => ?_, by rw [hvotes], .inl (by rw [hvotes]; exact ⟨rfl, rfl⟩), fun h => ?_⟩
    · exact absurd h (by simp [hall])
    · exact absurd h (by simp [hsids])
  obtain ⟨-, heq⟩ | ⟨hlost, -⟩ := lazyUpdate_cases serverId q
  · exact heq
  · exact absurd hwon hlost

theorem act_fresh {s : QuorumState κ} {a : QuorumAct κ} (hfresh : s.Fresh) (hok : s.Harmless a) : (s.act a).Fresh := by
  intro hc
  cases a with
  | config words =>
    simp only [act, configQuorum, vote] at hc ⊢
    cases hq : s.quorum with
    | some q =>
      have hf : s.cache ≠ 0 → s.cache = q.lazyUpdate s.serverId := fun h => by
        have := hfresh h
        rwa [vote, hq] at this
      simp only [Harmless, hq] at hok
      simp only [hq] at hc
      exact configLoop_fresh hf hok hc
    | none =>
      simp only [hq] at hc
      exact configLoop_fresh (fun _ => (lazyUpdate_idle rfl rfl rfl).symm) (configOk_nil words rfl) hc
  | delete =>
    simp only [act, configDelete] at hc ⊢
    cases hq : s.quorum with
    | none =>
      simp only [hq] at hc ⊢
      exact hfresh hc
    | some q =>
      simp only [Harmless, hq] at hok
      simp only [hq, vote] at hc ⊢
      rw [lazyUpdate_idle rfl rfl rfl]
      split_ifs with hreq
      · rw [if_pos hreq] at hc
        have hv := hfresh hc
        rw [vote, hq] at hv
        dsimp only at hv
        obtain ⟨-, heq⟩ | ⟨-, heq⟩ := lazyUpdate_cases s.serverId q
        · exact hv.trans heq
        · rw [hv, heq] at hok
          exact absurd (hok.resolve_left (not_not_intro hreq)) (by decide)
      · rfl
  | addRid key rid junk =>
    simp only [act, quorumAddRid, vote] at hc ⊢
    cases hq : s.quorum with
    | some q =>
      have hf : s.cache ≠ 0 → s.cache = q.lazyUpdate s.serverId := fun h => by
        have := hfresh h
        rwa [vote, hq] at this
      simp only [Harmless, hq] at hok
      simp only [hq] at hc
      exact addLink_fresh hf hok hc
    | none =>
      simp only [hq] at hc
      have hspare : Spare s.serverId 1 (beInit : Quorum κ) := by
        refine ⟨?_, .inr ⟨rfl, Nat.le_refl _, Nat.le_refl _, ?_⟩⟩
        · exact fun _ hr => absurd hr not_mem_nil
        · exact fun h => absurd h Bool.false_ne_true
      exact addLink_fresh (fun _ => (lazyUpdate_idle rfl rfl rfl).symm) (.inr (.inr (.inr hspare))) hc
  | removeRid key =>
    simp only [act, quorumRemoveRid] at hc ⊢
    cases hq : s.quorum with
    | none =>
      simp only [hq] at hc ⊢
      exact hfresh hc
    | some q =>
      simp only [hq] at hc ⊢
      split at hc
      · exact hfresh hc
      · exact absurd rfl hc
  | notifySid key sid =>
    simp only [act, quorumNotifySid] at hc ⊢
    cases hq : s.quorum with
    | none =>
      simp only [hq] at hc ⊢
      exact hfresh hc
    | some q =>
      simp only [hq] at hc ⊢
      cases hch : (q.notifySid key sid).2 with
      | true =>
        rw [hch] at hc
        exact absurd rfl hc
      | false =>
        rw [hch] at hc
        have hsame : (q.notifySid key sid).1 = q := by
          unfold notifySid at hch ⊢
          split at hch
          · rfl
          · split at hch
            · rfl
            · split_ifs at hch ⊢
              rfl
        have hv := hfresh hc
        rw [vote, hq] at hv
        rw [hsame]
        exact hv
  | notifyStatus key status =>
    simp only [act, quorumNotifyStatus] at hc ⊢
    cases hq : s.quorum with
    | none =>
      simp only [hq] at hc ⊢
      exact hfresh hc
    | some q =>
      simp only [hq] at hc ⊢
      cases hch : (notifyStatus key status q.present).2 with
      | true =>
        rw [hch] at hc
        exact absurd rfl hc
      | false =>
        rw [hch] at hc
        have hv := hfresh hc
        rw [vote, hq] at hv
        exact hv.trans (lazyUpdate_sameVote (notifyStatus_sameVote hch)).symm
  | notifyCsn csnsid =>
    simp only [act, quorumNotifyCsn] at hc ⊢
    cases hq : s.quorum with
    | none =>
      simp only [hq] at hc ⊢
      exact hfresh hc
    | some q =>
      simp only [hq] at hc ⊢
      if hauto : q.autoSids = true then
        rw [if_pos hauto] at hc ⊢
        cases hch : (q.requireAppend ⟨false, false, true⟩ csnsid).2 with
        | true =>
          simp only [hch] at hc
          exact absurd rfl hc
        | false =>
          simp only [hch] at hc
          have hv := hfresh hc
          rw [vote, hq] at hv
          simp only [vote, (requireAppend_false hch).1]
          exact hv
      else
        rw [if_neg hauto] at hc ⊢
        exact hfresh hc
  | notifySelfSid sid =>
    simp only [act, quorumNotifySelfSid] at hc ⊢
    cases hq : s.quorum with
    | none =>
      simp only [hq] at hc
      have hv := hfresh hc
      rw [vote, hq] at hv
      exact hv
    | some q =>
      simp only [hq] at hc
      exact absurd rfl hc
  | query =>
    simp only [act, quorumQuery] at hc ⊢
    split_ifs at hc ⊢ with h0
    · rfl
    · exact hfresh hc

/-- After harmless calls the query returns the current vote. -/
theorem quorum_query_fresh {s s' : QuorumState κ} {acts : List (QuorumAct κ)} (hnew : s.quorum = none)
    (hcache : s.cache = 0 ∨ s.cache = 1) (hrun : Steps (fun s a s' => s.Harmless a ∧ s' = s.act a) s acts s') :
    s'.quorumQuery.1 = decide (0 < s'.vote) := by
  have hstart : s.Fresh := by
    intro hc
    unfold vote
    rw [hnew]
    exact hcache.resolve_left hc
  have hfresh : s'.Fresh := by
    refine hrun.invariant Fresh ?_ hstart
    intro s a s' hs hstep
    exact hstep.2 ▸ act_fresh hs hstep.1
  unfold quorumQuery
  split_ifs with h0
  · rfl
  · rw [hfresh h0]

def start : QuorumState Nat := ⟨1, none, 0⟩

def voteRids : List (QuorumAct Nat) :=
  [.config [.voteRids, .other (some 1) none, .other (some 2) none], .addRid 1 1 0, .addRid 2 2 0, .notifyStatus 1 3]

/-- Two links vote, and one gets ready. -/
theorem quorum_query_fresh_voteRids :
    (voteRids.foldl act start).quorumQuery.1 = decide (0 < (voteRids.foldl act start).vote) := by
  refine @quorum_query_fresh Nat _ start (voteRids.foldl act start) voteRids rfl (.inl rfl) ?_
  have hadd : ∀ (s : QuorumState Nat) (key : Nat) (rid : Int), s.cache = 0 → s.Harmless (.addRid key rid 0) := by
    intro s key rid h0
    unfold Harmless
    cases s.quorum with
    | none => trivial
    | some q => exact .inl h0
  exact .cons ⟨trivial, rfl⟩ (.cons ⟨hadd _ 1 1 rfl, rfl⟩ (.cons ⟨hadd _ 2 2 rfl, rfl⟩ (.cons ⟨trivial, rfl⟩ .refl)))

def staleLink : QuorumState Nat := ((start.act (.config [.allLinks])).act .query).act (.addRid 1 1 0)

def staleAutoSids : QuorumState Nat := ((start.act (.addRid 1 1 0)).act .query).act (.config [.autoSids])

def staleDelete : QuorumState Nat :=
  (((start.act (.addRid 1 1 0)).act (.config [.allLinks])).act .query).act .delete

/-- An old answer: behind a new link with `all-links`, behind `auto-sids` with a link of no server, and when `all-links` is
deleted. -/
theorem quorum_query_stale :
    (staleLink.quorumQuery.1 = true ∧ staleLink.vote = -1) ∧
    (staleAutoSids.quorumQuery.1 = true ∧ staleAutoSids.vote = -1) ∧
    (staleDelete.quorumQuery.1 = false ∧ staleDelete.vote = 1) := by
  decide

end QuorumState
end Sync
end ReOpenLDAP
