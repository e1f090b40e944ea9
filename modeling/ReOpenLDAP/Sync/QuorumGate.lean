import ReOpenLDAP.Sync.QuorumBooks

/-!
# Sync.QuorumGate

The gate that consumers pass when they refresh.

* `quorum_syncrepl_gate_safe` — then no assertion fails, and the limit holds.
-/

namespace ReOpenLDAP
namespace Sync

open List

variable {κ : Type}

def LDAP_SUCCESS : Int := 0x00

def LDAP_BUSY : Int := 0x33

/-- `quorum_syncrepl_gate`: `qt_running` and the result. There is none if an assertion fails. -/
def quorumSyncreplGate (limit running : Int) (enter : Bool) : Option (Int × Int) :=
  let r :=
    if enter then
      if limit ≠ 0 ∧ limit ≤ running then some (running, LDAP_BUSY) else some (running + 1, LDAP_SUCCESS)
    else if 0 < running then some (running - 1, LDAP_SUCCESS)
    else none
  r.filter fun r => 0 ≤ r.1 ∧ r.1 ≤ QR_SYNCREPL_MAX

theorem gate_enter_busy {limit running : Int} (hpos : 0 ≤ running) (hmax : running ≤ QR_SYNCREPL_MAX)
    (hlimit : limit ≠ 0 ∧ limit ≤ running) : quorumSyncreplGate limit running true = some (running, LDAP_BUSY) := by
  simp only [quorumSyncreplGate, if_true, if_pos hlimit]
  simp [hpos, hmax]

theorem gate_enter {limit running : Int} (hpos : 0 ≤ running) (hmax : running < QR_SYNCREPL_MAX)
    (hlimit : ¬ (limit ≠ 0 ∧ limit ≤ running)) :
    quorumSyncreplGate limit running true = some (running + 1, LDAP_SUCCESS) := by
  have hsum : 0 ≤ running + 1 ∧ running + 1 ≤ QR_SYNCREPL_MAX := ⟨by omega, hmax⟩
  simp only [quorumSyncreplGate, if_true, if_neg hlimit]
  simp [hsum]

theorem gate_leave {limit running : Int} (hpos : 0 < running) (hmax : running ≤ QR_SYNCREPL_MAX) :
    quorumSyncreplGate limit running false = some (running - 1, LDAP_SUCCESS) := by
  have hdiff : 0 ≤ running - 1 ∧ running - 1 ≤ QR_SYNCREPL_MAX := ⟨by omega, by omega⟩
  simp only [quorumSyncreplGate, if_pos hpos]
  simpa using hdiff

namespace QuorumState

/-- `qr_syncrepl_limit` -/
def limit (s : QuorumState κ) : Int := s.quorumOrInit.syncreplLimit

def beInited (s : QuorumState κ) : QuorumState κ :=
  match s.quorum with
  | some _ => s
  | none => { s with quorum := some beInit, cache := 1 }

@[simp] theorem limit_beInited (s : QuorumState κ) : s.beInited.limit = s.limit := by
  cases hq : s.quorum <;> simp [limit, beInited, quorumOrInit, hq]

end QuorumState

inductive GateAct (κ : Type) where
  | enter (instanceKey : κ)
  | leave (instanceKey : κ)
  | call (a : QuorumAct κ)

/-- The quorum, its `qt_running`, and the consumers that have entered and not left. `aborted` is set by a failed
assertion. -/
structure GateState (κ : Type) where
  state : QuorumState κ
  running : Int
  inside : List κ
  aborted : Bool

namespace GateState

variable [DecidableEq κ]

def act (t : GateState κ) (a : GateAct κ) : GateState κ :=
  if t.aborted then t
  else
    match a with
    | .enter k =>
      match quorumSyncreplGate t.state.limit t.running true with
      | some (running, rc) =>
        { t with state := t.state.beInited, running := running, inside := if rc = LDAP_SUCCESS then k :: t.inside else t.inside }
      | none => { t with aborted := true }
    | .leave k =>
      match quorumSyncreplGate t.state.limit t.running false with
      | some (running, _) => { t with state := t.state.beInited, running := running, inside := t.inside.erase k }
      | none => { t with aborted := true }
    | .call a => { t with state := t.state.act a }

def Entered (t : GateState κ) : GateAct κ → Prop
  | .leave k => k ∈ t.inside
  | _ => True

/-- Where there is no limit, fewer than `QR_SYNCREPL_MAX` are inside. No limit is configured below the number inside. -/
def GateOk (t : GateState κ) : GateAct κ → Prop
  | .enter _ => t.state.limit = 0 → (t.inside.length : Int) < QR_SYNCREPL_MAX
  | .call (.config words) =>
    (t.state.configQuorum words).limit ≠ 0 → (t.inside.length : Int) ≤ (t.state.configQuorum words).limit
  | _ => True

/-- The counter is right, and the limit is one that `config_quorum` takes and holds. -/
structure Safe (t : GateState κ) : Prop where
  aborted : t.aborted = false
  running : t.running = t.inside.length
  max : (t.inside.length : Int) ≤ QR_SYNCREPL_MAX
  limit : t.state.limit ≤ QR_SYNCREPL_MAX
  held : t.state.limit ≠ 0 → (t.inside.length : Int) ≤ t.state.limit

end GateState

namespace QuorumState

open Quorum

/-! ## What sets the limit -/

theorem requireAutoSids_limit (q : Quorum κ) : q.requireAutoSids.1.syncreplLimit = q.syncreplLimit := by
  unfold requireAutoSids
  split_ifs
  · rfl
  · exact (requireAll_grown _ _ _).1.limit

theorem requireAutoRids_limit (q : Quorum κ) : q.requireAutoRids.1.syncreplLimit = q.syncreplLimit := by
  unfold requireAutoRids
  split_ifs
  · rfl
  · exact (requireAll_grown _ _ _).1.limit

theorem configWord_limit {q : Quorum κ} {cache : Int} {mode : Mode} {w : Word} (h : q.syncreplLimit ≤ QR_SYNCREPL_MAX) :
    (configWord q cache mode w).1.syncreplLimit ≤ QR_SYNCREPL_MAX := by
  cases w with
  | allLinks =>
    simp only [configWord]
    split_ifs
    · exact h
    · exact h
  | autoSids => exact (requireAutoSids_limit q).le.trans h
  | autoRids => exact (requireAutoRids_limit q).le.trans h
  | limitConcurrentRefresh =>
    simp only [configWord]
    split_ifs
    · exact h
    · exact show (1 : Int) ≤ 15 by decide
  | other dec hex =>
    simp only [configWord]
    split
    · split
      · exact h
      · split_ifs with hrange
        · exact h
        · exact not_lt.mp fun hlt => hrange (.inr hlt)
    · exact h
    · split
      · exact h
      · split_ifs
        · exact h
        · exact (requireAppend_grown q _ _).limit.le.trans h
        · exact h
  | _ => exact h

theorem configLoop_limit {q : Quorum κ} {cache : Int} {mode : Mode} {words : List Word}
    (h : q.syncreplLimit ≤ QR_SYNCREPL_MAX) : (configLoop q cache mode words).1.syncreplLimit ≤ QR_SYNCREPL_MAX := by
  induction words generalizing q cache mode with
  | nil => exact h
  | cons w ws ih =>
    have hword := @configWord_limit _ q cache mode w h
    unfold configLoop
    revert hword
    cases configWord q cache mode w with
    | mk q' r =>
      obtain ⟨cache', mode'⟩ := r
      cases mode' with
      | none => exact id
      | some mode' => exact fun hword => ih hword

theorem configQuorum_limit {s : QuorumState κ} {words : List Word} (h : s.limit ≤ QR_SYNCREPL_MAX) :
    (s.configQuorum words).limit ≤ QR_SYNCREPL_MAX := by
  unfold limit at h ⊢
  cases hq : s.quorum with
  | some q =>
    simp only [quorumOrInit, hq, Option.getD_some] at h
    simpa [configQuorum, quorumOrInit, hq] using configLoop_limit h
  | none =>
    simp only [quorumOrInit, hq, Option.getD_none] at h
    simpa [configQuorum, quorumOrInit, hq] using configLoop_limit h

theorem configDelete_limit (s : QuorumState κ) : s.configDelete.limit = 0 := by
  cases hq : s.quorum <;> simp [limit, configDelete, quorumOrInit, hq, beInit]

variable [DecidableEq κ]

theorem addLink_limit (q : Quorum κ) (cache : Int) (key : κ) (rid junk : Int) :
    (addLink q cache key rid junk).1.syncreplLimit = q.syncreplLimit := by
  unfold addLink
  dsimp only
  if hknown : (q.present.any fun p => p.key = key) = true then rw [if_pos hknown]
  else
    rw [if_neg hknown]
    if hauto : q.autoRids = true then
      rw [if_pos hauto]
      exact (requireAppend_grown _ _ _).limit
    else rw [if_neg hauto]

theorem notifySid_limit (q : Quorum κ) (key : κ) (sid : Int) : (q.notifySid key sid).1.syncreplLimit = q.syncreplLimit := by
  cases hfind : q.present.find? fun p => p.key = key with
  | none => rw [notifySid_none hfind]
  | some p =>
    obtain ⟨as, bs, hat⟩ := linkAt_of_find? hfind
    rw [notifySid_eq hat]
    split_ifs
    · rfl
    · exact (reportSid_flags q p.sid sid).2.2

theorem act_limit (s : QuorumState κ) (a : QuorumAct κ) :
    (s.act a).limit = match a with
      | .config words => (s.configQuorum words).limit
      | .delete => 0
      | _ => s.limit := by
  cases a with
  | config words => rfl
  | delete => exact configDelete_limit s
  | addRid key rid junk =>
    cases hq : s.quorum <;> simp [act, quorumAddRid, limit, quorumOrInit, hq, addLink_limit]
  | removeRid key =>
    cases hq : s.quorum with
    | none => simp [act, quorumRemoveRid, hq]
    | some q =>
      cases hfind : q.present.find? fun p => p.key = key with
      | none => simp [act, quorumRemoveRid, hq, hfind]
      | some p =>
        simp only [act, quorumRemoveRid, limit, quorumOrInit, hq, hfind, Option.getD_some]
        exact (dropLink_flags q p).2.2
  | notifySid key sid => cases hq : s.quorum <;> simp [act, quorumNotifySid, limit, quorumOrInit, hq, notifySid_limit]
  | notifyStatus key status => cases hq : s.quorum <;> simp [act, quorumNotifyStatus, limit, quorumOrInit, hq]
  | notifyCsn csnsid =>
    cases hq : s.quorum with
    | none => simp [act, quorumNotifyCsn, hq]
    | some q =>
      simp only [act, quorumNotifyCsn, hq]
      if hauto : q.autoSids = true then
        rw [if_pos hauto]
        simpa [limit, quorumOrInit, hq] using (requireAppend_grown q ⟨false, false, true⟩ csnsid).limit
      else rw [if_neg hauto]
  | notifySelfSid sid => rfl
  | query =>
    simp only [act, quorumQuery]
    split_ifs
    · rfl
    · rfl

end QuorumState

namespace GateState

variable [DecidableEq κ] {t : GateState κ}

theorem Safe.enter (h : t.Safe) {k : κ} (hok : t.GateOk (.enter k)) : (t.act (.enter k)).Safe := by
  have hpos : 0 ≤ t.running := by
    rw [h.running]
    exact Int.natCast_nonneg _
  have hmax : t.running ≤ QR_SYNCREPL_MAX := h.running ▸ h.max
  unfold act
  rw [if_neg (by simp [h.aborted])]
  if hlimit : t.state.limit ≠ 0 ∧ t.state.limit ≤ t.running then
    simp only [gate_enter_busy hpos hmax hlimit]
    rw [if_neg (by decide)]
    exact ⟨h.aborted, h.running, h.max, by simpa using h.limit, by simpa using h.held⟩
  else
    have hfree : t.state.limit = 0 ∨ t.running < t.state.limit := by
      obtain h0 | hle := not_and_or.mp hlimit
      · exact .inl (not_not.mp h0)
      · exact .inr (not_le.mp hle)
    have hroom : t.running < QR_SYNCREPL_MAX := by
      obtain h0 | hlt := hfree
      · exact h.running ▸ hok h0
      · exact hlt.trans_le h.limit
    simp only [gate_enter hpos hroom hlimit, if_true]
    have hrunning := h.running
    refine ⟨h.aborted, by simp [h.running], ?_, by simpa using h.limit, fun hne => ?_⟩
    · simp only [length_cons, Nat.cast_succ]
      omega
    · simp only [QuorumState.limit_beInited] at hne ⊢
      simp only [length_cons, Nat.cast_succ]
      omega

theorem Safe.leave (h : t.Safe) {k : κ} (hentered : k ∈ t.inside) : (t.act (.leave k)).Safe := by
  have hlength : ((t.inside.erase k).length : Int) = t.running - 1 := by
    have hpos := length_pos_of_mem hentered
    rw [h.running, length_erase_of_mem hentered]
    omega
  have hpos : 0 < t.running := by
    rw [h.running]
    exact_mod_cast length_pos_of_mem hentered
  unfold act
  rw [if_neg (by simp [h.aborted])]
  simp only [gate_leave hpos (h.running ▸ h.max)]
  have hmax := h.max
  rw [← h.running] at hmax
  refine ⟨h.aborted, hlength.symm, ?_, by simpa using h.limit, fun hne => ?_⟩
  · simp only [hlength]
    omega
  · simp only [QuorumState.limit_beInited] at hne ⊢
    have hheld := h.held hne
    rw [← h.running] at hheld
    rw [hlength]
    omega

theorem Safe.call (h : t.Safe) {a : QuorumAct κ} (hok : t.GateOk (.call a)) : (t.act (.call a)).Safe := by
  unfold act
  rw [if_neg (by simp [h.aborted])]
  have hlimit := QuorumState.act_limit t.state a
  refine ⟨h.aborted, h.running, h.max, ?_, ?_⟩
  · simp only [hlimit]
    cases a with
    | config words => exact QuorumState.configQuorum_limit h.limit
    | delete => exact show (0 : Int) ≤ 15 by decide
    | _ => exact h.limit
  · simp only [hlimit]
    cases a with
    | config words => exact hok
    | delete => exact fun hne => absurd rfl hne
    | _ => exact h.held

theorem Safe.act {a : GateAct κ} (h : t.Safe) (hentered : t.Entered a) (hok : t.GateOk a) : (t.act a).Safe := by
  cases a with
  | enter k => exact h.enter hok
  | leave k => exact h.leave hentered
  | call a => exact h.call hok

/-- In every run in which consumers leave after they have entered, 15 are not exceeded without a limit, and no limit is
configured below the number inside, no assertion fails and the limit holds. -/
theorem quorum_syncrepl_gate_safe {s : QuorumState κ} {t' : GateState κ} {acts : List (GateAct κ)} (hnew : s.quorum = none)
    (hrun : Steps (fun t a t' => t.Entered a ∧ t.GateOk a ∧ t' = t.act a) ⟨s, 0, [], false⟩ acts t') :
    t'.aborted = false ∧ (t'.state.limit ≠ 0 → (t'.inside.length : Int) ≤ t'.state.limit) := by
  have hsafe : t'.Safe := by
    refine hrun.invariant Safe ?_ ?_
    · rintro t a t' h ⟨hentered, hok, rfl⟩
      exact h.act hentered hok
    · have hlimit : s.limit = 0 := by simp [QuorumState.limit, QuorumState.quorumOrInit, hnew, QuorumState.beInit]
      refine ⟨rfl, rfl, show (0 : Int) ≤ 15 by decide, ?_, fun hne => absurd hlimit hne⟩
      simp only [hlimit]
      decide
  exact ⟨hsafe.aborted, hsafe.held⟩

def oneAtATime : List (GateAct ℕ) :=
  [.call (.config [.limitConcurrentRefresh, .other (some 1) none]), .enter 1, .enter 2, .leave 1, .enter 2]

def closed : GateState ℕ := ⟨QuorumState.start, 0, [], false⟩

theorem quorum_syncrepl_gate_safe_oneAtATime :
    (oneAtATime.foldl act closed).aborted = false ∧
      ((oneAtATime.foldl act closed).state.limit ≠ 0 →
        ((oneAtATime.foldl act closed).inside.length : Int) ≤ (oneAtATime.foldl act closed).state.limit) := by
  refine @quorum_syncrepl_gate_safe ℕ _ QuorumState.start (oneAtATime.foldl act closed) oneAtATime rfl ?_
  have hlimited : ∀ {t : GateState ℕ} {k : ℕ}, t.state.limit = 1 → t.GateOk (.enter k) := fun h h0 => absurd h0 (by simp [h])
  exact .cons ⟨trivial, fun _ => show (0 : Int) ≤ 1 by decide, rfl⟩ (.cons ⟨trivial, hlimited (by decide), rfl⟩
    (.cons ⟨trivial, hlimited (by decide), rfl⟩ (.cons ⟨mem_singleton_self 1, trivial, rfl⟩
      (.cons ⟨trivial, hlimited (by decide), rfl⟩ .refl))))

/-- Sixteen consumers and no limit, and a limit of one that comes when two are inside. -/
theorem quorum_syncrepl_gate_aborts :
    (((List.range 16).map GateAct.enter).foldl act closed).aborted = true ∧
      ∃ t, [.enter 1, .enter 2, .call (.config [.limitConcurrentRefresh])].foldl act closed = t ∧ t.state.limit = 1 ∧
        t.inside.length = 2 :=
  ⟨by decide, _, rfl, by decide, by decide⟩

end GateState
end Sync
end ReOpenLDAP
