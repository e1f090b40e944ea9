import Mathlib.Algebra.BigOperators.Group.List.Basic
import Mathlib.Data.BitVec
import ReOpenLDAP.Sync.QuorumDemand

/-!
# Sync.QuorumBooks

What a quorum keeps beside its links: a count for each status, a sum over the RIDs, and the automatic requirements.
-/

namespace ReOpenLDAP
namespace Sync

open List Option

variable {κ : Type}

def mesh (x : BitVec 32) : BitVec 32 :=
  let x := x ^^^ (x <<< 13)
  let x := x * 3931654393
  let x := x ^^^ (x >>> 13)
  let x := x * 3058479007
  x ^^^ (x >>> 16)

def Present.mesh (p : Present κ) : BitVec 32 := Sync.mesh (BitVec.ofInt 32 p.rid)

/-- `qt_status` and `salt` of `struct slap_quorum`. -/
structure Books where
  qtStatus : Int → Int
  salt : BitVec 32

namespace Books

def beInit : Books := ⟨fun _ => 0, 0⟩

def add (b : Books) (p : Present κ) : Books :=
  ⟨Function.update b.qtStatus p.status (b.qtStatus p.status + 1), b.salt + p.mesh⟩

def remove (b : Books) (p : Present κ) : Books :=
  ⟨Function.update b.qtStatus p.status (b.qtStatus p.status - 1), b.salt - p.mesh⟩

def move (b : Books) (old new : Int) : Books :=
  let qt := Function.update b.qtStatus old (b.qtStatus old - 1)
  { b with qtStatus := Function.update qt new (qt new + 1) }

structure Counted (b : Books) (present : List (Present κ)) : Prop where
  status : ∀ s, b.qtStatus s = present.countP fun p => p.status = s
  salt : b.salt = (present.map Present.mesh).sum

theorem counted_beInit : beInit.Counted ([] : List (Present κ)) := ⟨fun _ => rfl, rfl⟩

variable {b : Books} {l : List (Present κ)}

theorem Counted.perm {l' : List (Present κ)} (h : b.Counted l) (hperm : l.Perm l') : b.Counted l' :=
  ⟨fun s => by rw [h.status, hperm.countP_eq], by rw [h.salt, (hperm.map _).sum_eq]⟩

theorem Counted.withSid {as bs : List (Present κ)} {p : Present κ} (h : b.Counted (as ++ p :: bs)) (sid : Int) :
    b.Counted (as ++ { p with sid := sid } :: bs) := by
  constructor
  · intro s
    rw [h.status, countP_append, countP_append, countP_cons, countP_cons]
  · simpa [Present.mesh] using h.salt

theorem Counted.add {p : Present κ} (h : b.Counted l) : (b.add p).Counted (p :: l) := by
  constructor
  · intro s
    if hs : p.status = s then
      subst hs
      simp [Books.add, h.status]
    else
      simp [Books.add, h.status, hs, Function.update_of_ne (Ne.symm hs)]
  · simp [Books.add, h.salt, add_comm]

theorem Counted.remove {p : Present κ} (h : b.Counted (p :: l)) : (b.remove p).Counted l := by
  constructor
  · intro s
    if hs : p.status = s then
      subst hs
      simp [Books.remove, h.status]
    else
      simp [Books.remove, h.status, hs, Function.update_of_ne (Ne.symm hs)]
  · simp [Books.remove, h.salt]

theorem move_eq {p : Present κ} {status : Int} : b.move p.status status = (b.remove p).add { p with status := status } := by
  simp [Books.move, Books.remove, Books.add, Present.mesh]

end Books

namespace Quorum

def Requires (q : Quorum κ) (rid : Bool) (id : Int) : Prop := ∃ r ∈ q.requirements, r.id = id ∧ r.type.rid = rid

def NoTwice (q : Quorum κ) : Prop := (q.requirements.map fun r => (r.id, r.type.rid)).Nodup

/-- With auto-sids every SID that a link reports is required, with auto-rids every RID. -/
structure Covered (q : Quorum κ) : Prop where
  sids : q.autoSids = true → ∀ p ∈ q.present, -1 < p.sid → q.Requires false p.sid
  rids : q.autoRids = true → ∀ p ∈ q.present, q.Requires true p.rid

structure Revised (q q' : Quorum κ) : Prop where
  present : q'.present = q.present
  noTwice : q.NoTwice → q'.NoTwice
  covered : q.Covered → q'.Covered

theorem Revised.refl (q : Quorum κ) : Revised q q := ⟨rfl, id, id⟩

theorem Revised.trans {q₁ q₂ q₃ : Quorum κ} (h₁ : Revised q₁ q₂) (h₂ : Revised q₂ q₃) : Revised q₁ q₃ :=
  ⟨h₂.present.trans h₁.present, h₂.noTwice ∘ h₁.noTwice, h₂.covered ∘ h₁.covered⟩

variable {q : Quorum κ} {id old new sid : Int} {rid : Bool}

theorem revised_of_eq {q' : Quorum κ} (hpresent : q'.present = q.present) (hreq : q'.requirements = q.requirements)
    (hsids : q'.autoSids = q.autoSids) (hrids : q'.autoRids = q.autoRids) : Revised q q' := by
  refine ⟨hpresent, by simp only [NoTwice, hreq, imp_self], fun hc => ⟨?_, ?_⟩⟩
  · simpa only [Requires, hreq, hsids, hpresent] using hc.sids
  · simpa only [Requires, hreq, hrids, hpresent] using hc.rids

structure Grown (q q' : Quorum κ) : Prop where
  present : q'.present = q.present
  autoSids : q'.autoSids = q.autoSids
  autoRids : q'.autoRids = q.autoRids
  limit : q'.syncreplLimit = q.syncreplLimit
  requires : ∀ rid id, q.Requires rid id → q'.Requires rid id
  noTwice : q.NoTwice → q'.NoTwice

theorem Grown.refl (q : Quorum κ) : Grown q q := ⟨rfl, rfl, rfl, rfl, fun _ _ => id, id⟩

theorem Grown.trans {q₁ q₂ q₃ : Quorum κ} (h₁ : Grown q₁ q₂) (h₂ : Grown q₂ q₃) : Grown q₁ q₃ :=
  ⟨h₂.present.trans h₁.present, h₂.autoSids.trans h₁.autoSids, h₂.autoRids.trans h₁.autoRids,
    h₂.limit.trans h₁.limit, fun rid id h => h₂.requires rid id (h₁.requires rid id h), h₂.noTwice ∘ h₁.noTwice⟩

theorem Grown.revised {q' : Quorum κ} (h : Grown q q') : Revised q q' := by
  refine ⟨h.present, h.noTwice, fun hc => ⟨?_, ?_⟩⟩
  · rw [h.autoSids, h.present]
    exact fun ha p hp hsid => h.requires _ _ (hc.sids ha p hp hsid)
  · rw [h.autoRids, h.present]
    exact fun ha p hp => h.requires _ _ (hc.rids ha p hp)

theorem requireAppend_keys (q : Quorum κ) (type : ReqType) (id : Int) :
    let keys := fun r : Requirement => (r.id, r.type.rid)
    ((id, type.rid) ∈ q.requirements.map keys ∧
        (q.requireAppend type id).1.requirements.map keys = q.requirements.map keys) ∨
      ((id, type.rid) ∉ q.requirements.map keys ∧
        (q.requireAppend type id).1.requirements.map keys = q.requirements.map keys ++ [(id, type.rid)]) := by
  intro keys
  unfold requireAppend
  split
  · rename_i i hfind
    obtain ⟨hlt, hfound, -⟩ := List.findIdx?_eq_some_iff_getElem.mp hfind
    have hkey : keys q.requirements[i] = (id, type.rid) := by simpa [keys] using hfound
    refine .inl ⟨List.mem_map.mpr ⟨_, getElem_mem hlt, hkey⟩, ?_⟩
    split_ifs
    · have hlt' : i < (q.requirements.map keys).length := by simpa using hlt
      have hget : (q.requirements.map keys)[i] = (id, type.rid) := by simpa using hkey
      calc (q.requirements.set i ⟨type, id⟩).map keys
          = (q.requirements.map keys).set i (id, type.rid) := map_set
        _ = q.requirements.map keys := by rw [← hget, set_getElem_self]
    · rfl
  · rename_i hfind
    refine .inr ⟨fun hmem => ?_, by simp [keys]⟩
    obtain ⟨r, hr, hkey⟩ := List.mem_map.mp hmem
    have hnot := List.findIdx?_eq_none_iff.mp hfind r hr
    simp only [keys, Prod.mk.injEq] at hkey
    simp [hkey] at hnot

theorem requires_iff : q.Requires rid id ↔ (id, rid) ∈ q.requirements.map fun r => (r.id, r.type.rid) := by
  simp [Requires]

theorem requireAppend_requires (q : Quorum κ) (type : ReqType) (id : Int) :
    (q.requireAppend type id).1.Requires type.rid id := by
  rw [requires_iff]
  obtain ⟨hmem, heq⟩ | ⟨-, heq⟩ := requireAppend_keys q type id
  · rw [heq]
    exact hmem
  · rw [heq]
    exact mem_append_right _ (mem_singleton_self _)

theorem requireAppend_present (q : Quorum κ) (type : ReqType) (id : Int) :
    (q.requireAppend type id).1.present = q.present ∧ (q.requireAppend type id).1.autoSids = q.autoSids ∧
      (q.requireAppend type id).1.autoRids = q.autoRids ∧ (q.requireAppend type id).1.syncreplLimit = q.syncreplLimit := by
  unfold requireAppend
  split
  · split_ifs <;> exact ⟨rfl, rfl, rfl, rfl⟩
  · exact ⟨rfl, rfl, rfl, rfl⟩

theorem requireAppend_grown (q : Quorum κ) (type : ReqType) (id : Int) : Grown q (q.requireAppend type id).1 := by
  obtain ⟨hpresent, hsids, hrids, hlimit⟩ := requireAppend_present q type id
  refine ⟨hpresent, hsids, hrids, hlimit, fun rid id' h => ?_, fun h => ?_⟩
  · rw [requires_iff] at h ⊢
    obtain ⟨-, heq⟩ | ⟨-, heq⟩ := requireAppend_keys q type id
    · rw [heq]
      exact h
    · rw [heq]
      exact mem_append_left _ h
  · unfold NoTwice at h ⊢
    obtain ⟨-, heq⟩ | ⟨hnew, heq⟩ := requireAppend_keys q type id
    · rw [heq]
      exact h
    · rw [heq]
      exact h.append (nodup_singleton _) (List.disjoint_singleton.mpr hnew)

theorem requireAll_grown (q : Quorum κ) (type : ReqType) (ids : List Int) :
    Grown q (q.requireAll type ids).1 ∧ ∀ id ∈ ids, (q.requireAll type ids).1.Requires type.rid id := by
  induction ids generalizing q with
  | nil => exact ⟨Grown.refl q, by simp⟩
  | cons id ids ih =>
    rw [requireAll_cons]
    obtain ⟨hgrown, hall⟩ := ih (q.requireAppend type id).1
    exact ⟨(requireAppend_grown q type id).trans hgrown,
      List.forall_mem_cons.mpr ⟨hgrown.requires _ _ (requireAppend_requires q type id), hall⟩⟩

theorem requireAutoSids_revised (q : Quorum κ) : Revised q q.requireAutoSids.1 := by
  unfold requireAutoSids
  split_ifs
  · exact Revised.refl q
  · obtain ⟨hgrown, hall⟩ :=
      requireAll_grown { q with autoSids := true } ⟨false, false, true⟩ ((q.present.map Present.sid).filter (-1 < ·))
    refine ⟨hgrown.present, hgrown.noTwice, fun hc => ⟨fun _ p hp hsid => ?_, fun ha p hp => ?_⟩⟩
    · rw [hgrown.present] at hp
      exact hall p.sid (List.mem_filter.mpr ⟨List.mem_map_of_mem hp, by simpa using hsid⟩)
    · rw [hgrown.present] at hp
      rw [hgrown.autoRids] at ha
      exact hgrown.requires _ _ (hc.rids ha p hp)

theorem requireAutoRids_revised (q : Quorum κ) : Revised q q.requireAutoRids.1 := by
  unfold requireAutoRids
  split_ifs
  · exact Revised.refl q
  · obtain ⟨hgrown, hall⟩ := requireAll_grown { q with autoRids := true } ⟨false, true, true⟩ (q.present.map Present.rid)
    refine ⟨hgrown.present, hgrown.noTwice, fun hc => ⟨fun ha p hp hsid => ?_, fun _ p hp => ?_⟩⟩
    · rw [hgrown.present] at hp
      rw [hgrown.autoSids] at ha
      exact hgrown.requires _ _ (hc.sids ha p hp hsid)
    · rw [hgrown.present] at hp
      exact hall p.rid (List.mem_map_of_mem hp)

theorem requireRemove_noTwice (h : q.NoTwice) : (q.requireRemove rid id).NoTwice :=
  h.sublist (List.eraseP_sublist.map _)

theorem requireRemove_requires {rid' : Bool} {id' : Int} (h : q.Requires rid' id')
    (hne : id' = id → rid' = rid → ∀ r ∈ q.requirements, r.id = id → r.type.rid = rid → r.type.auto = false) :
    (q.requireRemove rid id).Requires rid' id' := by
  obtain ⟨r, hr, rfl, rfl⟩ := h
  refine ⟨r, (mem_eraseP_of_neg ?_).mpr hr, rfl, rfl⟩
  simp only [decide_eq_true_eq]
  rintro ⟨hid, hrid, hauto⟩
  rw [hne hid hrid r hr hid hrid] at hauto
  cases hauto

/-! ## Links -/

/-- Nothing but the link of `key` needs the requirement, or it is not automatic. -/
def Alone (q : Quorum κ) (rid : Bool) (id : Int) (others : List (Present κ)) : Prop :=
  (∀ p ∈ others, (if rid then p.rid else p.sid) ≠ id) ∨
    ∀ r ∈ q.requirements, r.id = id → r.type.rid = rid → r.type.auto = false

structure LinkAt (key : κ) (l as : List (Present κ)) (p : Present κ) (bs : List (Present κ)) : Prop where
  split : l = as ++ p :: bs
  hasKey : p.key = key
  first : ∀ a ∈ as, a.key ≠ key

theorem LinkAt.mem_of_others {key : κ} {l as bs : List (Present κ)} {p : Present κ} (h : LinkAt key l as p bs) :
    ∀ p' ∈ as ++ bs, p' ∈ l := by
  rw [h.split]
  exact fun p' hp' => ((sublist_cons_self p bs).append_left as).subset hp'

/-- The requirements behind `notify_sid` for a link that reported another SID. -/
def reportSid (q : Quorum κ) (old new : Int) : Quorum κ :=
  let r := if q.autoSids ∧ -1 < old then q.requireRemove false old else q
  if q.autoSids ∧ -1 < new then (r.requireAppend ⟨false, false, true⟩ new).1 else r

theorem reportSid_noTwice (h : q.NoTwice) : (q.reportSid old new).NoTwice := by
  unfold reportSid
  dsimp only
  split_ifs
  · exact (requireAppend_grown _ _ _).noTwice (requireRemove_noTwice h)
  · exact (requireAppend_grown _ _ _).noTwice h
  · exact requireRemove_noTwice h
  · exact h

theorem reportSid_flags (q : Quorum κ) (old new : Int) :
    (q.reportSid old new).autoSids = q.autoSids ∧ (q.reportSid old new).autoRids = q.autoRids ∧
      (q.reportSid old new).syncreplLimit = q.syncreplLimit := by
  unfold reportSid
  dsimp only
  have happend := fun q' : Quorum κ => (requireAppend_present q' ⟨false, false, true⟩ new).2
  split_ifs
  · exact happend (q.requireRemove false old)
  · exact happend q
  · exact ⟨rfl, rfl, rfl⟩
  · exact ⟨rfl, rfl, rfl⟩

theorem reportSid_new (hauto : q.autoSids = true) (hnew : -1 < new) : (q.reportSid old new).Requires false new := by
  unfold reportSid
  rw [if_pos (⟨hauto, hnew⟩ : q.autoSids = true ∧ -1 < new)]
  exact requireAppend_requires _ ⟨false, false, true⟩ new

theorem reportSid_requires (h : q.Requires rid id) (hne : q.autoSids = true → -1 < old → id = old → rid = false →
      ∀ r ∈ q.requirements, r.id = old → r.type.rid = false → r.type.auto = false) :
    (q.reportSid old new).Requires rid id := by
  have hremove : (if q.autoSids ∧ -1 < old then q.requireRemove false old else q).Requires rid id := by
    split_ifs with hold
    · exact requireRemove_requires h (hne hold.1 hold.2)
    · exact h
  unfold reportSid
  dsimp only
  split_ifs at hremove ⊢
  · exact (requireAppend_grown _ _ _).requires _ _ hremove
  · exact (requireAppend_grown _ _ _).requires _ _ hremove
  · exact hremove
  · exact hremove

/-- The requirements behind `quorum_remove_rid`. -/
def dropLink (q : Quorum κ) (p : Present κ) : Quorum κ :=
  let r := if -1 < p.sid ∧ q.autoSids then q.requireRemove false p.sid else q
  if q.autoRids then r.requireRemove true p.rid else r

theorem dropLink_flags (q : Quorum κ) (p : Present κ) :
    (q.dropLink p).autoSids = q.autoSids ∧ (q.dropLink p).autoRids = q.autoRids ∧
      (q.dropLink p).syncreplLimit = q.syncreplLimit := by
  unfold dropLink
  dsimp only
  split_ifs <;> exact ⟨rfl, rfl, rfl⟩

theorem dropLink_noTwice {p : Present κ} (h : q.NoTwice) : (q.dropLink p).NoTwice := by
  unfold dropLink
  dsimp only
  split_ifs
  · exact requireRemove_noTwice (requireRemove_noTwice h)
  · exact requireRemove_noTwice h
  · exact requireRemove_noTwice h
  · exact h

theorem dropLink_requires {p : Present κ} (h : q.Requires rid id)
    (hsid : q.autoSids = true → -1 < p.sid → id = p.sid → rid = false →
      ∀ r ∈ q.requirements, r.id = p.sid → r.type.rid = false → r.type.auto = false)
    (hrid : q.autoRids = true → id = p.rid → rid = true →
      ∀ r ∈ q.requirements, r.id = p.rid → r.type.rid = true → r.type.auto = false) :
    (q.dropLink p).Requires rid id := by
  unfold dropLink
  dsimp only
  split_ifs with hrids hsids hsids
  · refine requireRemove_requires (requireRemove_requires h (hsid hsids.2 hsids.1)) fun hid hkind r hr => ?_
    exact hrid hrids hid hkind r (mem_of_mem_eraseP hr)
  · exact requireRemove_requires h (hrid hrids)
  · exact requireRemove_requires h (hsid hsids.2 hsids.1)
  · exact h

theorem dropLink_covered {key : κ} {as bs : List (Present κ)} {p : Present κ} (h : q.Covered) (hat : LinkAt key q.present as p bs)
    (hsid : q.autoSids = true → -1 < p.sid → q.Alone false p.sid (as ++ bs))
    (hrid : q.autoRids = true → q.Alone true p.rid (as ++ bs)) : { q.dropLink p with present := as ++ bs }.Covered := by
  obtain ⟨hsids, hrids, -⟩ := dropLink_flags q p
  constructor
  · intro hauto p' hp' hpos
    have hauto : q.autoSids = true := hsids.symm.trans hauto
    refine dropLink_requires (h.sids hauto p' (hat.mem_of_others p' hp') hpos) (fun _ hold heq _ => ?_)
      fun _ _ hkind => nomatch hkind
    exact (hsid hauto hold).resolve_left fun hothers => hothers p' hp' heq
  · intro hauto p' hp'
    have hauto : q.autoRids = true := hrids.symm.trans hauto
    refine dropLink_requires (h.rids hauto p' (hat.mem_of_others p' hp')) (fun _ _ _ hkind => nomatch hkind) fun _ heq _ => ?_
    exact (hrid hauto).resolve_left fun hothers => hothers p' hp' heq

variable [DecidableEq κ]

theorem linkAt_of_find? {key : κ} {l : List (Present κ)} {p : Present κ} (h : l.find? (fun p => p.key = key) = some p) :
    ∃ as bs, LinkAt key l as p bs := by
  obtain ⟨hkey, as, bs, rfl, hfirst⟩ := List.find?_eq_some_iff_append.mp h
  exact ⟨as, bs, rfl, by simpa using hkey, by simpa using hfirst⟩

namespace LinkAt

variable {key : κ} {l as bs : List (Present κ)} {p : Present κ}

theorem eraseP (h : LinkAt key l as p bs) : l.eraseP (fun p => p.key = key) = as ++ bs := by
  rw [h.split, eraseP_append_right _ (by simpa using h.first), eraseP_cons_of_pos (by simp [h.hasKey])]

theorem findIdx? (h : LinkAt key l as p bs) : l.findIdx? (fun p => p.key = key) = some as.length := by
  rw [List.findIdx?_eq_some_iff_getElem]
  refine ⟨by simp [h.split], by simp [h.split, h.hasKey], fun j hj => ?_⟩
  simpa [h.split, getElem_append_left hj] using h.first as[j] (getElem_mem hj)

theorem notifyStatus (h : LinkAt key l as p bs) (status : Int) :
    (notifyStatus key status l).1 = as ++ { p with status := status } :: bs := by
  obtain ⟨rfl, hkey, hfirst⟩ := h
  induction as with
  | nil => simp [Quorum.notifyStatus, hkey]
  | cons a as ih =>
    have ha : a.key ≠ key := hfirst a (mem_cons_self ..)
    have ih := ih fun a' ha' => hfirst a' (mem_cons_of_mem _ ha')
    simp [Quorum.notifyStatus, ha, ih]

end LinkAt

theorem notifyStatus_none {key : κ} {status : Int} {l : List (Present κ)} (h : l.find? (fun p => p.key = key) = none) :
    (notifyStatus key status l).1 = l := by
  induction l with
  | nil => rfl
  | cons p l ih =>
    rw [List.find?_cons] at h
    have hkey : p.key ≠ key := fun hkey => by simp [hkey] at h
    simp only [hkey, decide_false] at h
    simp [notifyStatus, hkey, ih h]

theorem notifySid_none {key : κ} (h : q.present.find? (fun p => p.key = key) = none) : (q.notifySid key sid).1 = q := by
  have hnone : q.present.findIdx? (fun p => p.key = key) = none := by
    rw [List.findIdx?_eq_none_iff]
    exact fun p hp => by simpa using List.find?_eq_none.mp h p hp
  simp only [notifySid, hnone]

theorem notifySid_eq {key : κ} {as bs : List (Present κ)} {p : Present κ} (h : LinkAt key q.present as p bs) :
    (q.notifySid key sid).1 =
      if p.sid = sid then q else { q.reportSid p.sid sid with present := as ++ { p with sid := sid } :: bs } := by
  have hget : q.present[as.length]? = some p := by simp [h.split]
  have hset : q.present.set as.length { p with sid := sid } = as ++ { p with sid := sid } :: bs := by simp [h.split]
  simp only [notifySid, h.findIdx?, hget, reportSid, hset]
  split_ifs <;> rfl

theorem notifySid_covered {key : κ} {as bs : List (Present κ)} {p : Present κ}
    (h : q.Covered) (hat : LinkAt key q.present as p bs) (hne : p.sid ≠ sid)
    (halone : q.autoSids = true → -1 < p.sid → q.Alone false p.sid (as ++ bs)) : (q.notifySid key sid).1.Covered := by
  rw [notifySid_eq hat, if_neg hne]
  obtain ⟨hsids, hrids, -⟩ := reportSid_flags q p.sid sid
  have hlinks : ∀ p' ∈ as ++ { p with sid := sid } :: bs, p' = { p with sid := sid } ∨ p' ∈ as ++ bs := by
    intro p' hp'
    simp only [mem_append, mem_cons] at hp' ⊢
    tauto
  constructor
  · intro hauto p' hp' hsid
    have hauto : q.autoSids = true := hsids.symm.trans hauto
    obtain rfl | hp' := hlinks p' hp'
    · exact reportSid_new hauto hsid
    · refine reportSid_requires (h.sids hauto p' (hat.mem_of_others p' hp') hsid) fun _ hold heq _ => ?_
      exact (halone hauto hold).resolve_left fun hothers => hothers p' hp' heq
  · intro hauto p' hp'
    have hauto : q.autoRids = true := hrids.symm.trans hauto
    have hreq : q.Requires true p'.rid := by
      obtain rfl | hp' := hlinks p' hp'
      · exact h.rids hauto p (by rw [hat.split]; exact mem_append_right _ (mem_cons_self ..))
      · exact h.rids hauto p' (hat.mem_of_others p' hp')
    exact reportSid_requires hreq fun _ _ _ hkind => nomatch hkind

end Quorum

namespace QuorumState

open Quorum

variable [DecidableEq κ]

theorem addLink_new {q : Quorum κ} {cache : Int} {key : κ} {rid junk : Int}
    (hnew : ¬ (q.present.any fun p => p.key = key) = true) :
    (addLink q cache key rid junk).1.present = q.present ++ [⟨key, rid, -1, QS_DIRTY⟩] ∧
      (q.NoTwice → (addLink q cache key rid junk).1.NoTwice) ∧ (q.Covered → (addLink q cache key rid junk).1.Covered) := by
  have hsids : q.Covered → q.autoSids = true → ∀ p ∈ q.present ++ [⟨key, rid, -1, QS_DIRTY⟩], -1 < p.sid →
      q.Requires false p.sid := by
    intro h hauto p hp hsid
    obtain hp | hp := List.mem_append.mp hp
    · exact h.sids hauto p hp hsid
    · rw [List.mem_singleton.mp hp] at hsid
      exact absurd hsid (lt_irrefl _)
  unfold addLink
  rw [if_neg hnew]
  dsimp only
  if hauto : q.autoRids = true then
    rw [if_pos hauto]
    have hgrown := requireAppend_grown { q with present := q.present ++ [⟨key, rid, -1, QS_DIRTY⟩], endStatus := junk }
      ⟨false, true, true⟩ rid
    refine ⟨hgrown.present, hgrown.noTwice, fun h => ⟨fun ha p hp hsid => ?_, fun _ p hp => ?_⟩⟩
    · rw [hgrown.present] at hp
      rw [hgrown.autoSids] at ha
      exact hgrown.requires _ _ (hsids h ha p hp hsid)
    · rw [hgrown.present] at hp
      obtain hp | hp := List.mem_append.mp hp
      · exact hgrown.requires _ _ (h.rids hauto p hp)
      · rw [List.mem_singleton.mp hp]
        exact requireAppend_requires _ ⟨false, true, true⟩ rid
  else
    rw [if_neg hauto]
    exact ⟨rfl, id, fun h => ⟨hsids h, fun ha => absurd ha hauto⟩⟩

omit [DecidableEq κ] in
theorem configWord_revised (q : Quorum κ) (cache : Int) (mode : Mode) (w : Word) : Revised q (configWord q cache mode w).1 := by
  cases w with
  | allLinks =>
    simp only [configWord]
    split_ifs
    · exact Revised.refl q
    · exact revised_of_eq rfl rfl rfl rfl
  | autoSids => exact requireAutoSids_revised q
  | autoRids => exact requireAutoRids_revised q
  | limitConcurrentRefresh =>
    simp only [configWord]
    split_ifs
    · exact Revised.refl q
    · exact revised_of_eq rfl rfl rfl rfl
  | other dec hex =>
    simp only [configWord]
    split
    · split
      · exact Revised.refl q
      · split_ifs
        · exact Revised.refl q
        · exact revised_of_eq rfl rfl rfl rfl
    · exact Revised.refl q
    · split
      · exact Revised.refl q
      · split_ifs
        · exact Revised.refl q
        · exact (requireAppend_grown q _ _).revised
        · exact Revised.refl q
  | _ => exact Revised.refl q

omit [DecidableEq κ] in
theorem configLoop_revised (q : Quorum κ) (cache : Int) (mode : Mode) (words : List Word) :
    Revised q (configLoop q cache mode words).1 := by
  induction words generalizing q cache mode with
  | nil => exact Revised.refl q
  | cons w ws ih =>
    have hword := configWord_revised q cache mode w
    unfold configLoop
    revert hword
    cases configWord q cache mode w with
    | mk q' r =>
      obtain ⟨cache', mode'⟩ := r
      cases mode' with
      | none => exact id
      | some mode' => exact fun hword => hword.trans (ih q' cache' mode')

/-- The quorum, or the one that `quorum_be_init` would make. -/
def quorumOrInit (s : QuorumState κ) : Quorum κ := s.quorum.getD beInit

def books (s : QuorumState κ) (b : Books) : QuorumAct κ → Books
  | .addRid key rid _ => if s.quorumOrInit.present.any fun p => p.key = key then b else b.add ⟨key, rid, -1, QS_DIRTY⟩
  | .removeRid key =>
    match s.quorumOrInit.present.find? fun p => p.key = key with
    | some p => b.remove p
    | none => b
  | .notifyStatus key status =>
    match s.quorumOrInit.present.find? fun p => p.key = key with
    | some p => if p.status = status then b else b.move p.status status
    | none => b
  | _ => b

/-- A link that goes, or reports another SID, leaves a requirement that no other link needs. -/
def AloneOk (s : QuorumState κ) : QuorumAct κ → Prop
  | .removeRid key =>
    ∀ p, s.quorumOrInit.present.find? (fun p => p.key = key) = some p →
      let others := s.quorumOrInit.present.eraseP fun p => p.key = key
      (s.quorumOrInit.autoSids = true → -1 < p.sid → s.quorumOrInit.Alone false p.sid others) ∧
        (s.quorumOrInit.autoRids = true → s.quorumOrInit.Alone true p.rid others)
  | .notifySid key sid =>
    ∀ p, s.quorumOrInit.present.find? (fun p => p.key = key) = some p → p.sid ≠ sid →
      s.quorumOrInit.autoSids = true → -1 < p.sid →
        s.quorumOrInit.Alone false p.sid (s.quorumOrInit.present.eraseP fun p => p.key = key)
  | _ => True

structure Kept (s : QuorumState κ) (b : Books) (a : QuorumAct κ) : Prop where
  counted : b.Counted s.quorumOrInit.present → (s.books b a).Counted (s.act a).quorumOrInit.present
  noTwice : s.quorumOrInit.NoTwice → (s.act a).quorumOrInit.NoTwice
  covered : s.AloneOk a → s.quorumOrInit.Covered → (s.act a).quorumOrInit.Covered

theorem kept_of_revised {s : QuorumState κ} {b : Books} {a : QuorumAct κ}
    (h : Revised s.quorumOrInit (s.act a).quorumOrInit) (hb : s.books b a = b) : s.Kept b a :=
  ⟨fun hc => by rw [hb, h.present]; exact hc, h.noTwice, fun _ => h.covered⟩

theorem kept_addRid (s : QuorumState κ) (b : Books) (key : κ) (rid junk : Int) : s.Kept b (.addRid key rid junk) := by
  have hact : ∃ cache, (s.act (.addRid key rid junk)).quorumOrInit = (addLink s.quorumOrInit cache key rid junk).1 := by
    cases hq : s.quorum with
    | some q => exact ⟨s.cache, by simp [act, quorumAddRid, quorumOrInit, hq]⟩
    | none => exact ⟨1, by simp [act, quorumAddRid, quorumOrInit, hq]⟩
  obtain ⟨cache, hact⟩ := hact
  if hknown : (s.quorumOrInit.present.any fun p => p.key = key) = true then
    refine kept_of_revised ?_ (if_pos hknown)
    rw [hact, addLink, if_pos hknown]
    exact Revised.refl _
  else
    obtain ⟨hpresent, hnoTwice, hcovered⟩ := @addLink_new _ _ s.quorumOrInit cache key rid junk hknown
    refine ⟨fun hc => ?_, hact ▸ hnoTwice, fun _ => hact ▸ hcovered⟩
    rw [hact, hpresent, books, if_neg hknown]
    exact hc.add.perm (perm_append_singleton _ _).symm

theorem kept_removeRid (s : QuorumState κ) (b : Books) (key : κ) : s.Kept b (.removeRid key) := by
  cases hfind : s.quorumOrInit.present.find? fun p => p.key = key with
  | none =>
    have hact : (s.act (.removeRid key)).quorumOrInit = s.quorumOrInit := by
      cases hq : s.quorum with
      | some q =>
        simp only [quorumOrInit, hq, getD_some] at hfind ⊢
        simp only [act, quorumRemoveRid, hq, hfind, getD_some]
      | none => simp only [act, quorumRemoveRid, hq]
    exact kept_of_revised (hact ▸ Revised.refl _) (by simp only [books, hfind])
  | some p =>
    obtain ⟨as, bs, hat⟩ := linkAt_of_find? hfind
    have hact : (s.act (.removeRid key)).quorumOrInit = { s.quorumOrInit.dropLink p with present := as ++ bs } := by
      rw [← hat.eraseP]
      cases hq : s.quorum with
      | some q =>
        simp only [quorumOrInit, hq, getD_some] at hfind ⊢
        simp only [act, quorumRemoveRid, hq, hfind, dropLink, getD_some]
      | none => simp [quorumOrInit, hq, beInit] at hfind
    have hbooks : s.books b (.removeRid key) = b.remove p := by simp only [books, hfind]
    refine ⟨fun hc => ?_, fun h => ?_, fun hok h => ?_⟩
    · rw [hact, hbooks]
      rw [hat.split] at hc
      exact (hc.perm perm_middle).remove
    · rw [hact]
      exact dropLink_noTwice h
    · obtain ⟨hsid, hrid⟩ := hok p hfind
      rw [hat.eraseP] at hsid hrid
      rw [hact]
      exact dropLink_covered h hat hsid hrid

theorem kept_notifySid (s : QuorumState κ) (b : Books) (key : κ) (sid : Int) : s.Kept b (.notifySid key sid) := by
  have hact : (s.act (.notifySid key sid)).quorumOrInit = (s.quorumOrInit.notifySid key sid).1 := by
    cases hq : s.quorum <;> simp [act, quorumNotifySid, quorumOrInit, hq, beInit, Quorum.notifySid]
  cases hfind : s.quorumOrInit.present.find? fun p => p.key = key with
  | none => exact kept_of_revised (by rw [hact, notifySid_none hfind]; exact Revised.refl _) rfl
  | some p =>
    obtain ⟨as, bs, hat⟩ := linkAt_of_find? hfind
    if hsame : p.sid = sid then
      exact kept_of_revised (by rw [hact, notifySid_eq hat, if_pos hsame]; exact Revised.refl _) rfl
    else
      refine ⟨fun hc => ?_, fun h => ?_, fun hok h => ?_⟩
      · rw [hact, notifySid_eq hat, if_neg hsame]
        rw [hat.split] at hc
        exact hc.withSid sid
      · rw [hact, notifySid_eq hat, if_neg hsame]
        exact reportSid_noTwice h
      · rw [hact]
        exact notifySid_covered h hat hsame fun hauto hold => hat.eraseP ▸ hok p hfind hsame hauto hold

theorem kept_notifyStatus (s : QuorumState κ) (b : Books) (key : κ) (status : Int) : s.Kept b (.notifyStatus key status) := by
  have hact : (s.act (.notifyStatus key status)).quorumOrInit =
      { s.quorumOrInit with present := (notifyStatus key status s.quorumOrInit.present).1 } := by
    cases hq : s.quorum <;> simp [act, quorumNotifyStatus, quorumOrInit, hq, beInit, notifyStatus]
  cases hfind : s.quorumOrInit.present.find? fun p => p.key = key with
  | none =>
    refine kept_of_revised ?_ (by simp only [books, hfind])
    rw [hact, notifyStatus_none hfind]
    exact Revised.refl _
  | some p =>
    obtain ⟨as, bs, hat⟩ := linkAt_of_find? hfind
    rw [hat.notifyStatus] at hact
    refine ⟨fun hc => ?_, fun h => ?_, fun _ h => ?_⟩
    · rw [hat.split] at hc
      simp only [hact, books, hfind]
      if hsame : p.status = status then
        rw [if_pos hsame, ← hsame]
        exact hc
      else
        rw [if_neg hsame, Books.move_eq]
        exact (hc.perm perm_middle).remove.add.perm List.perm_middle.symm
    · rw [hact]
      exact h
    · rw [hact]
      have hlinks : ∀ p' ∈ as ++ { p with status := status } :: bs,
          ∃ p'' ∈ s.quorumOrInit.present, p''.sid = p'.sid ∧ p''.rid = p'.rid := by
        intro p' hp'
        rw [hat.split]
        obtain hp' | rfl | hp' := by simpa using hp'
        · exact ⟨p', by simp [hp'], rfl, rfl⟩
        · exact ⟨p, by simp, rfl, rfl⟩
        · exact ⟨p', by simp [hp'], rfl, rfl⟩
      constructor
      · intro hauto p' hp' hsid
        obtain ⟨p'', hp'', heq, -⟩ := hlinks p' hp'
        exact heq ▸ h.sids hauto p'' hp'' (heq ▸ hsid)
      · intro hauto p' hp'
        obtain ⟨p'', hp'', -, heq⟩ := hlinks p' hp'
        exact heq ▸ h.rids hauto p'' hp''

theorem kept_act (s : QuorumState κ) (b : Books) (a : QuorumAct κ) : s.Kept b a := by
  cases a with
  | config words =>
    refine kept_of_revised ?_ rfl
    cases hq : s.quorum <;> simpa [act, configQuorum, quorumOrInit, hq] using configLoop_revised _ _ _ _
  | delete =>
    refine kept_of_revised ?_ rfl
    cases hq : s.quorum with
    | none =>
      simp only [act, configDelete, hq]
      exact Revised.refl _
    | some q =>
      simp only [act, configDelete, quorumOrInit, hq, getD_some]
      refine ⟨rfl, fun _ => nodup_nil, fun _ => ⟨?_, ?_⟩⟩
      · intro h
        cases h
      · intro h
        cases h
  | addRid key rid junk => exact kept_addRid s b key rid junk
  | removeRid key => exact kept_removeRid s b key
  | notifySid key sid => exact kept_notifySid s b key sid
  | notifyStatus key status => exact kept_notifyStatus s b key status
  | notifyCsn csnsid =>
    refine kept_of_revised ?_ rfl
    cases hq : s.quorum with
    | none =>
      simp only [act, quorumNotifyCsn, hq]
      exact Revised.refl _
    | some q =>
      simp only [act, quorumNotifyCsn, hq]
      if hauto : q.autoSids = true then
        rw [if_pos hauto]
        simpa [quorumOrInit, hq] using (requireAppend_grown q ⟨false, false, true⟩ csnsid).revised
      else
        rw [if_neg hauto]
        exact Revised.refl _
  | notifySelfSid sid => exact kept_of_revised (Revised.refl _) rfl
  | query =>
    refine kept_of_revised ?_ rfl
    simp only [act, quorumQuery]
    split_ifs
    · exact Revised.refl _
    · exact Revised.refl _

def BooksStep (t : QuorumState κ × Books) (a : QuorumAct κ) (t' : QuorumState κ × Books) : Prop :=
  t' = (t.1.act a, t.1.books t.2 a)

/-- The books and the list of requirements are right in every run. What the links report is covered in every run whose
calls drop no requirement that another link needs. -/
theorem quorum_books {s s' : QuorumState κ} {b' : Books} {acts : List (QuorumAct κ)} (hnew : s.quorum = none)
    (hrun : Steps BooksStep (s, Books.beInit) acts (s', b')) :
    (∀ q, s'.quorum = some q → b'.Counted q.present ∧ q.NoTwice) ∧
      (Steps (fun t a t' => t.1.AloneOk a ∧ BooksStep t a t') (s, Books.beInit) acts (s', b') →
        ∀ q, s'.quorum = some q → q.Covered) := by
  have hinit : s.quorumOrInit = beInit := by simp [quorumOrInit, hnew]
  constructor
  · intro q hq
    have hall : (s', b').2.Counted (s', b').1.quorumOrInit.present ∧ (s', b').1.quorumOrInit.NoTwice := by
      refine hrun.invariant (fun t => t.2.Counted t.1.quorumOrInit.present ∧ t.1.quorumOrInit.NoTwice) ?_ ?_
      · rintro t a t' ⟨hcounted, hnoTwice⟩ rfl
        exact ⟨(kept_act t.1 t.2 a).counted hcounted, (kept_act t.1 t.2 a).noTwice hnoTwice⟩
      · simp only [hinit]
        exact ⟨Books.counted_beInit, nodup_nil⟩
    simpa [quorumOrInit, hq] using hall
  · intro hok q hq
    have hall : (s', b').1.quorumOrInit.Covered := by
      refine hok.invariant (fun t => t.1.quorumOrInit.Covered) ?_ ?_
      · rintro t a t' hcovered ⟨halone, rfl⟩
        exact (kept_act t.1 t.2 a).covered halone hcovered
      · simp only [hinit]
        exact ⟨fun h => (nomatch h), fun h => (nomatch h)⟩
    simpa [quorumOrInit, hq] using hall

def aloneSid : List (QuorumAct ℕ) := [.config [.autoSids], .addRid 1 1 0, .notifySid 1 5, .notifyStatus 1 3, .notifySid 1 6]

def aloneBooks : Books := ((Books.beInit.add (⟨1, 1, -1, 0⟩ : Present ℕ)).move 0 3)

theorem quorum_books_aloneSid :
    (∀ q, (aloneSid.foldl act start).quorum = some q → aloneBooks.Counted q.present ∧ q.NoTwice) ∧
      ∀ q, (aloneSid.foldl act start).quorum = some q → q.Covered := by
  have hrun : Steps BooksStep (start, Books.beInit) aloneSid (aloneSid.foldl act start, aloneBooks) :=
    .cons rfl (.cons rfl (.cons rfl (.cons rfl (.cons rfl .refl))))
  obtain ⟨hall, hcovered⟩ := quorum_books rfl hrun
  refine ⟨hall, hcovered ?_⟩
  refine .cons ⟨trivial, rfl⟩ (.cons ⟨trivial, rfl⟩ (.cons ⟨?_, rfl⟩ (.cons ⟨trivial, rfl⟩ (.cons ⟨?_, rfl⟩ .refl))))
  · rintro p hfind - - hsid
    obtain rfl : (⟨1, 1, -1, 0⟩ : Present ℕ) = p := Option.some.inj hfind
    exact absurd hsid (by decide)
  · rintro p hfind - - -
    exact .inl fun p' hp' => absurd hp' (not_mem_nil)

def sharedSid : List (QuorumAct ℕ) :=
  [.config [.autoSids], .addRid 1 1 0, .addRid 2 2 0, .notifySid 1 5, .notifySid 2 5, .notifySid 1 6]

def sharedRid : List (QuorumAct ℕ) := [.config [.autoRids], .addRid 1 1 0, .addRid 2 1 0, .removeRid 1]

theorem quorum_books_uncovered :
    (∃ q, (sharedSid.foldl act start).quorum = some q ∧ q.autoSids = true ∧
      ∃ p ∈ q.present, -1 < p.sid ∧ ¬ ∃ r ∈ q.requirements, r.id = p.sid ∧ r.type.rid = false) ∧
    ∃ q, (sharedRid.foldl act start).quorum = some q ∧ q.autoRids = true ∧
      ∃ p ∈ q.present, ¬ ∃ r ∈ q.requirements, r.id = p.rid ∧ r.type.rid = true :=
  ⟨⟨_, rfl, rfl, ⟨2, 2, 5, 0⟩, by decide, by decide, by decide⟩, _, rfl, rfl, ⟨2, 1, -1, 0⟩, by decide, by decide⟩

end QuorumState
end Sync
end ReOpenLDAP
