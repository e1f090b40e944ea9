import ReOpenLDAP.Sync.Quorum

/-!
# Sync.QuorumDemand

The servers and links that `require-sids` and `require-rids` name.
-/

namespace ReOpenLDAP
namespace Sync

open List

variable {κ : Type}

/-- What is configured by `require-sids` and `require-rids`. -/
structure Demanded where
  sids : List Int
  rids : List Int
deriving DecidableEq

namespace Quorum

def Demanded (q : Quorum κ) (sid : Int) : Prop := ⟨QR_DEMAND_SID, sid⟩ ∈ q.requirements

structure Keeps (q q' : Quorum κ) : Prop where
  demanded : ∀ sid, q.Demanded sid → q'.Demanded sid
  endStatus : q'.endStatus = q.endStatus

theorem Keeps.refl (q : Quorum κ) : Keeps q q := ⟨fun _ h => h, rfl⟩

theorem Keeps.trans {q₁ q₂ q₃ : Quorum κ} (h₁ : Keeps q₁ q₂) (h₂ : Keeps q₂ q₃) : Keeps q₁ q₃ :=
  ⟨fun sid h => h₂.demanded sid (h₁.demanded sid h), h₂.endStatus.trans h₁.endStatus⟩

variable {q : Quorum κ}

theorem keeps_of_eq {q' : Quorum κ} (hreq : q'.requirements = q.requirements) (hend : q'.endStatus = q.endStatus) : Keeps q q' :=
  ⟨fun sid h => by rw [Demanded, hreq]; exact h, hend⟩

theorem mem_set_of_ne {α : Type*} {l : List α} {i : ℕ} {x y : α} (hx : x ∈ l) (hne : l[i]? ≠ some x) : x ∈ l.set i y := by
  obtain ⟨j, hj⟩ := mem_iff_getElem?.mp hx
  refine mem_iff_getElem?.mpr ⟨j, ?_⟩
  rw [List.getElem?_set_ne, hj]
  rintro rfl
  exact hne hj

theorem requireAppend_keeps (q : Quorum κ) (type : ReqType) (id : Int) : Keeps q (q.requireAppend type id).1 := by
  unfold requireAppend
  split
  · rename_i i hfind
    split_ifs with hauto
    · refine ⟨fun sid h => mem_set_of_ne h fun hi => ?_, rfl⟩
      rw [hi] at hauto
      exact absurd hauto.1 (by simp [QR_DEMAND_SID, QR_VOTED_SID])
    · exact Keeps.refl q
  · exact ⟨fun sid h => mem_append_left _ h, rfl⟩

theorem requireAppend_demanded {sid : Int} (h : (q.requireAppend QR_DEMAND_SID sid).2 = true) :
    (q.requireAppend QR_DEMAND_SID sid).1.Demanded sid := by
  unfold requireAppend at h ⊢
  split at h
  · rename_i i hfind
    split_ifs at h with hauto
    rw [if_pos hauto]
    obtain ⟨hlt, -⟩ := List.findIdx?_eq_some_iff_getElem.mp hfind
    exact List.mem_iff_getElem.mpr ⟨i, by simpa using hlt, by simp⟩
  · exact mem_append_right _ (mem_singleton_self _)

theorem requireRemove_keeps (q : Quorum κ) (rid : Bool) (id : Int) : Keeps q (q.requireRemove rid id) :=
  ⟨fun sid h => (mem_eraseP_of_neg (by simp [QR_DEMAND_SID, QR_VOTED_SID])).mpr h, rfl⟩

theorem requireAll_keeps (q : Quorum κ) (type : ReqType) (ids : List Int) : Keeps q (q.requireAll type ids).1 := by
  induction ids generalizing q with
  | nil => exact Keeps.refl q
  | cons id ids ih =>
    rw [requireAll_cons]
    exact (requireAppend_keeps q type id).trans (ih (q.requireAppend type id).1)

theorem requireAutoSids_keeps (q : Quorum κ) : Keeps q q.requireAutoSids.1 := by
  unfold requireAutoSids
  split_ifs
  · exact Keeps.refl q
  · have h := requireAll_keeps { q with autoSids := true } ⟨false, false, true⟩ ((q.present.map Present.sid).filter (-1 < ·))
    exact ⟨h.demanded, h.endStatus⟩

theorem requireAutoRids_keeps (q : Quorum κ) : Keeps q q.requireAutoRids.1 := by
  unfold requireAutoRids
  split_ifs
  · exact Keeps.refl q
  · have h := requireAll_keeps { q with autoRids := true } ⟨false, true, true⟩ (q.present.map Present.rid)
    exact ⟨h.demanded, h.endStatus⟩

theorem notifySid_keeps [DecidableEq κ] (q : Quorum κ) (key : κ) (sid : Int) : Keeps q (q.notifySid key sid).1 := by
  unfold notifySid
  split
  · exact Keeps.refl q
  · split
    · exact Keeps.refl q
    · split_ifs
      · exact Keeps.refl q
      · exact ((requireRemove_keeps _ _ _).trans (requireAppend_keeps _ _ _)).trans (keeps_of_eq rfl rfl)
      · exact (requireRemove_keeps _ _ _).trans (keeps_of_eq rfl rfl)
      · exact (requireAppend_keeps _ _ _).trans (keeps_of_eq rfl rfl)
      · exact keeps_of_eq rfl rfl

theorem voteRound_lack (serverId : Int) (q : Quorum κ) (v : Votes) (r : Requirement) (h : v.lack = true) :
    (voteRound serverId q v r).lack = true := by
  unfold voteRound
  split_ifs
  · exact h
  · simp [h]
  · simp [h]

theorem votes_lack {serverId : Int} {r : Requirement} (hr : r ∈ q.requirements)
    (hself : r.isSelf serverId = false) (hdemand : r.type.demand = true) (hunready : q.unready r = true) :
    (q.votes serverId).lack = true := by
  have hrest : ∀ (rs : List Requirement) (v : Votes), v.lack = true → (rs.foldl (voteRound serverId q) v).lack = true := by
    intro rs
    induction rs with
    | nil => exact fun v h => h
    | cons r' rs ih => exact fun v h => ih _ (voteRound_lack serverId q v r' h)
  have hround : ∀ v, (voteRound serverId q v r).lack = true := by
    intro v
    simp only [voteRound, hself, hdemand, hunready]
    cases r.type.rid <;> simp
  obtain ⟨rs, rs', hsplit⟩ := append_of_mem hr
  unfold votes
  rw [hsplit, foldl_append, foldl_cons]
  exact hrest rs' _ (hround _)

theorem lazyUpdate_lack {serverId : Int} (h : (q.votes serverId).lack = true) : q.lazyUpdate serverId < 0 := by
  obtain ⟨hwon, -⟩ | ⟨-, heq⟩ := lazyUpdate_cases serverId q
  · rw [hwon.demands] at h
    cases h
  · rw [heq]
    decide

theorem unready_of_not_ready {r : Requirement} (hend : q.endStatus < QS_READY)
    (hlinks : ∀ p ∈ q.present, r.isFor p = true → p.status < QS_READY) : q.unready r = true := by
  unfold unready
  cases hfind : q.present.find? r.isFor with
  | none => simp [hend]
  | some p => simp [hlinks p (List.mem_of_find?_eq_some hfind) (List.find?_some hfind)]

end Quorum

namespace QuorumState

open Quorum

/-! ## What is configured -/

/-- An ID counts if `config_quorum` takes it. -/
def demandWord (q : Quorum κ) (cache : Int) (mode : Mode) (d : Demanded) (w : Word) : Demanded :=
  match mode, w, (configWord q cache mode w).2.2 with
  | .ids type, .other dec hex, some _ =>
    match dec.or hex with
    | some id =>
      if type = QR_DEMAND_SID then { d with sids := id :: d.sids }
      else if type = QR_DEMAND_RID then { d with rids := id :: d.rids }
      else d
    | none => d
  | _, _, _ => d

def demandLoop (q : Quorum κ) (cache : Int) (mode : Mode) (d : Demanded) : List Word → Demanded
  | [] => d
  | w :: ws =>
    match configWord q cache mode w with
    | (q', cache', some mode') => demandLoop q' cache' mode' (demandWord q cache mode d w) ws
    | (_, _, none) => d

variable [DecidableEq κ]

def demand (s : QuorumState κ) (d : Demanded) : QuorumAct κ → Demanded
  | .config words =>
    match s.quorum with
    | some q => demandLoop q s.cache .none d words
    | none => demandLoop (beInit : Quorum κ) 1 .none d words
  | .delete => if s.quorum.isSome then ⟨[], []⟩ else d
  | _ => d

omit [DecidableEq κ] in
/-- A peer that is configured as required, is not the own server, and has no link that is ready. -/
def Missing (s : QuorumState κ) (d : Demanded) (q : Quorum κ) : Prop :=
  (∃ sid ∈ d.sids, sid ≠ s.serverId ∧ ∀ p ∈ q.present, p.sid = sid → p.status < QS_READY) ∨
  ∃ rid ∈ d.rids, ∀ p ∈ q.present, p.rid = rid → p.status < QS_READY

omit [DecidableEq κ] in
def Denied (s : QuorumState κ) (d : Demanded) : Prop :=
  ∀ q, s.quorum = some q → s.Missing d q → q.lazyUpdate s.serverId < 0

/-- No link is configured by `require-rids`, and new memory does not look like a ready link. -/
def DemandOk (s : QuorumState κ) (d : Demanded) : QuorumAct κ → Prop
  | .config words => (s.demand d (.config words)).rids = []
  | .addRid _ _ junk => junk < QS_READY
  | _ => True

structure Keeping (s : QuorumState κ) (d : Demanded) : Prop where
  rids : d.rids = []
  fresh : s.quorum = none → d.sids = []
  kept : ∀ q, s.quorum = some q → (∀ sid ∈ d.sids, q.Demanded sid) ∧ q.endStatus < QS_READY

variable {d : Demanded}

omit [DecidableEq κ] in
theorem Keeping.denied {s : QuorumState κ} (h : s.Keeping d) : s.Denied d := by
  intro q hq hmissing
  obtain ⟨hdemanded, hend⟩ := h.kept q hq
  obtain ⟨sid, hsid, hself, hlinks⟩ | ⟨rid, hrid, -⟩ := hmissing
  · apply lazyUpdate_lack
    refine votes_lack (hdemanded sid hsid) ?_ rfl (unready_of_not_ready hend ?_)
    · simpa [Requirement.isSelf, QR_DEMAND_SID, QR_VOTED_SID] using hself
    · intro p hp hfor
      exact hlinks p hp (by simpa [Requirement.isFor, QR_DEMAND_SID, QR_VOTED_SID] using hfor)
  · rw [h.rids] at hrid
    cases hrid

omit [DecidableEq κ] in
theorem configWord_keeps (q : Quorum κ) (cache : Int) (mode : Mode) (w : Word) : Keeps q (configWord q cache mode w).1 := by
  cases w with
  | allLinks =>
    simp only [configWord]
    split_ifs
    · exact Keeps.refl q
    · exact keeps_of_eq rfl rfl
  | autoSids => exact requireAutoSids_keeps q
  | autoRids => exact requireAutoRids_keeps q
  | limitConcurrentRefresh =>
    simp only [configWord]
    split_ifs
    · exact Keeps.refl q
    · exact keeps_of_eq rfl rfl
  | other dec hex =>
    simp only [configWord]
    split
    · split
      · exact Keeps.refl q
      · split_ifs
        · exact Keeps.refl q
        · exact keeps_of_eq rfl rfl
    · exact Keeps.refl q
    · split
      · exact Keeps.refl q
      · split_ifs
        · exact Keeps.refl q
        · exact requireAppend_keeps q _ _
        · exact Keeps.refl q
  | _ => exact Keeps.refl q

omit [DecidableEq κ] in
theorem demandWord_sids {q : Quorum κ} {cache : Int} {mode : Mode} {d : Demanded} {w : Word}
    (h : ∀ sid ∈ d.sids, q.Demanded sid) :
    ∀ sid ∈ (demandWord q cache mode d w).sids, (configWord q cache mode w).1.Demanded sid := by
  have hkeep := (configWord_keeps q cache mode w).demanded
  have hold : ∀ sid ∈ d.sids, (configWord q cache mode w).1.Demanded sid := fun sid hsid => hkeep sid (h sid hsid)
  unfold demandWord
  split
  · rename_i type dec hex m haccept
    cases hid : dec.or hex with
    | none => exact hold
    | some id =>
      dsimp only
      split_ifs with hsids hrids
      · intro sid hsid
        obtain rfl | hsid := List.mem_cons.mp hsid
        · subst hsids
          simp only [configWord, hid] at haccept ⊢
          split_ifs at haccept ⊢ with hrange happ
          exact requireAppend_demanded happ
        · exact hold sid hsid
      · exact hold
      · exact hold
  · exact hold

omit [DecidableEq κ] in
theorem configLoop_kept {q : Quorum κ} {cache : Int} {mode : Mode} {words : List Word}
    (h : ∀ sid ∈ d.sids, q.Demanded sid) (hend : q.endStatus < QS_READY) :
    (∀ sid ∈ (demandLoop q cache mode d words).sids, (configLoop q cache mode words).1.Demanded sid) ∧
      (configLoop q cache mode words).1.endStatus < QS_READY := by
  induction words generalizing q cache mode d with
  | nil => exact ⟨h, hend⟩
  | cons w ws ih =>
    have hkeep := configWord_keeps q cache mode w
    have hsids := @demandWord_sids _ q cache mode d w h
    have hend' : (configWord q cache mode w).1.endStatus < QS_READY := hkeep.endStatus.symm ▸ hend
    have hdrop : ∀ sid ∈ d.sids, (configWord q cache mode w).1.Demanded sid := fun sid hsid => hkeep.demanded sid (h sid hsid)
    unfold demandLoop configLoop
    revert hsids hend' hdrop
    cases configWord q cache mode w with
    | mk q' r =>
      obtain ⟨cache', mode'⟩ := r
      cases mode' with
      | none => exact fun _ hend' hdrop => ⟨hdrop, hend'⟩
      | some mode' => exact fun hsids hend' _ => ih hsids hend'

theorem addLink_kept {q : Quorum κ} {cache : Int} {key : κ} {rid junk : Int} (hend : q.endStatus < QS_READY)
    (hjunk : junk < QS_READY) :
    (∀ sid, q.Demanded sid → (addLink q cache key rid junk).1.Demanded sid) ∧
      (addLink q cache key rid junk).1.endStatus < QS_READY := by
  have h := requireAppend_keeps { q with present := q.present ++ [⟨key, rid, -1, QS_DIRTY⟩], endStatus := junk }
    ⟨false, true, true⟩ rid
  have hend' : (requireAppend { q with present := q.present ++ [⟨key, rid, -1, QS_DIRTY⟩], endStatus := junk }
      ⟨false, true, true⟩ rid).1.endStatus < QS_READY := by
    rw [h.endStatus]
    exact hjunk
  unfold addLink
  if hknown : (q.present.any fun p => p.key = key) = true then
    rw [if_pos hknown]
    exact ⟨fun _ h => h, hend⟩
  else
    rw [if_neg hknown]
    dsimp only
    if hauto : q.autoRids = true then
      rw [if_pos hauto]
      exact ⟨h.demanded, hend'⟩
    else
      rw [if_neg hauto]
      exact ⟨fun _ h => h, hjunk⟩

theorem Keeping.act {s : QuorumState κ} {a : QuorumAct κ} (h : s.Keeping d) (hok : s.DemandOk d a) :
    (s.act a).Keeping (s.demand d a) := by
  have hkeep {q q' : Quorum κ} (hq : s.quorum = some q) (hk : Keeps q q') :
      (∀ sid ∈ d.sids, q'.Demanded sid) ∧ q'.endStatus < QS_READY := by
    obtain ⟨hdemanded, hend⟩ := h.kept q hq
    exact ⟨fun sid hsid => hk.demanded sid (hdemanded sid hsid), hk.endStatus.symm ▸ hend⟩
  have hsame {s' : QuorumState κ} (hs : s'.quorum = s.quorum) : s'.Keeping d :=
    ⟨h.rids, fun hq => h.fresh (hs ▸ hq), fun q hq => h.kept q (hs ▸ hq)⟩
  have hnext {s' : QuorumState κ} {q q' : Quorum κ} (hq : s.quorum = some q) (hs : s'.quorum = some q') (hk : Keeps q q') :
      s'.Keeping d := by
    refine ⟨h.rids, fun hnone => ?_, fun q'' hq'' => ?_⟩
    · rw [hs] at hnone
      cases hnone
    · rw [hs] at hq''
      cases hq''
      exact hkeep hq hk
  cases a with
  | config words =>
    refine ⟨hok, fun hnone => ?_, fun q' hq' => ?_⟩
    · cases hnone
    · simp only [QuorumState.act, configQuorum] at hq'
      unfold demand
      cases hq : s.quorum with
      | some q =>
        simp only [hq] at hq'
        cases hq'
        exact configLoop_kept (h.kept q hq).1 (h.kept q hq).2
      | none =>
        simp only [hq] at hq'
        cases hq'
        exact configLoop_kept (by simp [h.fresh hq]) (show (0 : Int) < 3 by decide)
  | delete =>
    simp only [QuorumState.act, configDelete, demand]
    cases hq : s.quorum with
    | none => exact hsame rfl
    | some q =>
      refine ⟨rfl, fun _ => rfl, fun q' hq' => ?_⟩
      cases hq'
      exact ⟨by simp, (h.kept q hq).2⟩
  | addRid key rid junk =>
    refine ⟨h.rids, fun hnone => ?_, fun q' hq' => ?_⟩
    · cases hnone
    · simp only [QuorumState.act, quorumAddRid] at hq'
      cases hq : s.quorum with
      | some q =>
        simp only [hq] at hq'
        cases hq'
        obtain ⟨hdemanded, hend⟩ := @addLink_kept _ _ q s.cache key rid junk (h.kept q hq).2 hok
        exact ⟨fun sid hsid => hdemanded sid ((h.kept q hq).1 sid hsid), hend⟩
      | none =>
        simp only [hq] at hq'
        cases hq'
        exact ⟨by simp [demand, h.fresh hq], (addLink_kept (show (0 : Int) < 3 by decide) hok).2⟩
  | removeRid key =>
    simp only [QuorumState.act, quorumRemoveRid, demand]
    cases hq : s.quorum with
    | none => exact hsame rfl
    | some q =>
      dsimp only
      split
      · exact hsame rfl
      · refine hnext hq rfl ?_
        split_ifs
        · exact ((requireRemove_keeps _ _ _).trans (requireRemove_keeps _ _ _)).trans (keeps_of_eq rfl rfl)
        · exact (requireRemove_keeps _ _ _).trans (keeps_of_eq rfl rfl)
        · exact (requireRemove_keeps _ _ _).trans (keeps_of_eq rfl rfl)
        · exact keeps_of_eq rfl rfl
  | notifySid key sid =>
    simp only [QuorumState.act, quorumNotifySid, demand]
    cases hq : s.quorum with
    | none => exact hsame rfl
    | some q => exact hnext hq rfl (notifySid_keeps q key sid)
  | notifyStatus key status =>
    simp only [QuorumState.act, quorumNotifyStatus, demand]
    cases hq : s.quorum with
    | none => exact hsame rfl
    | some q => exact hnext hq rfl (keeps_of_eq rfl rfl)
  | notifyCsn csnsid =>
    simp only [QuorumState.act, quorumNotifyCsn, demand]
    cases hq : s.quorum with
    | none => exact hsame rfl
    | some q =>
      dsimp only
      if hauto : q.autoSids = true then
        rw [if_pos hauto]
        exact hnext hq rfl (requireAppend_keeps _ _ _)
      else
        rw [if_neg hauto]
        exact hsame rfl
  | notifySelfSid sid => exact hsame rfl
  | query =>
    simp only [QuorumState.act, quorumQuery, demand]
    split_ifs
    · exact hsame rfl
    · exact hsame rfl

def DemandStep (t : QuorumState κ × Demanded) (a : QuorumAct κ) (t' : QuorumState κ × Demanded) : Prop :=
  t' = (t.1.act a, t.1.demand t.2 a)

/-- In every run without `require-rids` and with memory that does not look ready, a required server that is not ready denies. -/
theorem quorum_demand_denies {s s' : QuorumState κ} {d' : Demanded} {acts : List (QuorumAct κ)} (hnew : s.quorum = none)
    (hrun : Steps (fun t a t' => t.1.DemandOk t.2 a ∧ DemandStep t a t') (s, ⟨[], []⟩) acts (s', d')) :
    d'.rids = [] ∧ s'.Denied d' := by
  have hkeeping : (s', d').1.Keeping (s', d').2 := by
    refine hrun.invariant (fun t => t.1.Keeping t.2) ?_ ⟨rfl, fun _ => rfl, fun q hq => ?_⟩
    · rintro t a t' h ⟨hok, rfl⟩
      exact h.act hok
    · rw [hnew] at hq
      cases hq
  exact ⟨hkeeping.rids, hkeeping.denied⟩

def requireSids : List (QuorumAct ℕ) := [.config [.requireSids, .other (some 5) none], .addRid 1 1 0]

theorem quorum_demand_denies_requireSids :
    ((requireSids.foldl act start).demand ⟨[5], []⟩ .query).rids = [] ∧ (requireSids.foldl act start).Denied ⟨[5], []⟩ := by
  refine @quorum_demand_denies ℕ _ start (requireSids.foldl act start) ⟨[5], []⟩ requireSids rfl ?_
  exact .cons ⟨rfl, rfl⟩ (.cons ⟨show (0 : Int) < 3 by decide, rfl⟩ .refl)

def requireRids : List (QuorumAct ℕ) :=
  [.config [.requireRids, .other (some 1) none, .other (some 2) none, .other (some 3) none], .addRid 1 1 0, .addRid 2 2 0,
    .notifyStatus 1 3, .notifyStatus 2 3]

/-- Three servers are required, two of them are there, and the memory behind their links holds a 3. -/
def requireSidsJunk : List (QuorumAct ℕ) :=
  [.config [.requireSids, .other (some 5) none, .other (some 6) none, .other (some 7) none], .addRid 1 1 0, .addRid 2 2 3,
    .notifySid 1 5, .notifySid 2 6, .notifyStatus 1 3, .notifyStatus 2 3]

/-- A quorum in spite of a required link and of a required server without a link. -/
theorem quorum_demand_ignored :
    ((start.demand ⟨[], []⟩ (.config [.requireRids, .other (some 1) none, .other (some 2) none, .other (some 3) none])).rids =
        [3, 2, 1] ∧
      (∃ q, (requireRids.foldl act start).quorum = some q ∧ (∀ p ∈ q.present, p.rid ≠ 3) ∧ q.lazyUpdate 1 = 1)) ∧
    (start.demand ⟨[], []⟩ (.config [.requireSids, .other (some 5) none, .other (some 6) none, .other (some 7) none])).sids =
        [7, 6, 5] ∧
      ∃ q, (requireSidsJunk.foldl act start).quorum = some q ∧ (∀ p ∈ q.present, p.sid ≠ 7) ∧ q.lazyUpdate 1 = 1 :=
  ⟨⟨by decide, _, rfl, by decide, by decide⟩, by decide, _, rfl, by decide, by decide⟩

end QuorumState
end Sync
end ReOpenLDAP
