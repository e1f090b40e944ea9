import ReOpenLDAP.Sync.CookieText
import ReOpenLDAP.Sync.Notify

/-!
# Sync.NotifyRight

Which messages the persistent searches get for a write.

* `syncprov_notifies_iff` — the messages are right and no assertion fails exactly if no search sees the entry
  come or go by an operation that is neither an add nor a delete.
-/

namespace ReOpenLDAP
namespace Sync

open BackMdb SyncCookie List Option

mutual

/-- A filter as `get_filter` makes it: what it computes is true, false or undefined. -/
def ParsedFilter : BackMdb.Filter → Prop
  | .computed result => result ≠ .success
  | .not f => ParsedFilter f
  | .and fs => ParsedList fs
  | .or fs => ParsedList fs
  | _ => True

def ParsedList : FilterList → Prop
  | .last f => ParsedFilter f
  | .cons f fs => ParsedFilter f ∧ ParsedList fs

end

structure SyncOp.Wf (so : SyncOp) : Prop where
  filter : ParsedFilter so.effFilter
  eid : so.eid.isSome
  opSearch : so.opSearch = true
  opMatch : so.opMatch = decide (0 < so.inuse)
  playback : so.playback = true → so.detached = true
  wroteBase : so.abandoned = false → so.dead = false → so.wroteBase = false

/-- Searches are linked by `syncprov_op_search`, which has found their base. -/
structure Provider.Wf (si : Provider) : Prop where
  nodup : si.ops.Nodup
  search : ∀ i ∈ si.ops, (si.heap i).Wf
  cookie : si.cookie.Verified

/-- The same search later: it may have been abandoned, died, detached or restarted its queue. -/
structure SyncOp.Later (so so' : SyncOp) : Prop where
  sid : so'.sid = so.sid
  reqNdn : so'.reqNdn = so.reqNdn
  base : so'.base = so.base
  eid : so'.eid = so.eid
  scope : so'.scope = so.scope
  effFilter : so'.effFilter = so.effFilter
  abandoned : so.abandoned = true → so'.abandoned = true
  dead : so.dead = true → so'.dead = true

/-- What other threads may do while an operation is active. `syncprov_op_search` waits until `si_active` is 0, so no
search comes; a match that the operation holds is not released by others. -/
structure Provider.Later (held : List Nat) (si si' : Provider) : Prop where
  wf : si'.Wf
  ops : ∀ i ∈ si'.ops, i ∈ si.ops
  search : ∀ i ∈ si'.ops, (si.heap i).Later (si'.heap i)
  held : ∀ i ∈ held, (si'.heap i).opMatch = true ∧ 0 < (si'.heap i).inuse

/-! ## What the messages should say -/

section

variable (cfg : NotifyConfig) (op : WriteOp)

def sees (si : Provider) (i : Nat) (e : Option SyncEntry) (dn : List Byte) : Bool :=
  match e with
  | none => false
  | some e => (si.heap i).inScope dn && decide (searchTest cfg i (si.heap i) e = .true)

def WriteOp.before (db : EntryDb) (si : Provider) (i : Nat) : Bool := sees cfg si i (db.get op.ndn) op.ndn

def WriteOp.after (db : EntryDb) (si : Provider) (i : Nat) : Bool := sees cfg si i (db.get (op.fdn false)) (op.fdn false)

def expected : Bool → Bool → List SyncMode
  | false, true => [.add]
  | true, true => [.modify]
  | true, false => [.delete]
  | false, false => []

def OpCookie.changes (opc : OpCookie) (i : Nat) : List SyncMode :=
  match opc.info with
  | none => []
  | some ri => (ri.list.filter fun m => m.1 = i ∧ m.2 ≠ .newCookie).map Prod.snd

/-- The base of the search is where it was, or there is no reason to look for it. -/
def SyncOp.HasBase (db : EntryDb) (so : SyncOp) : Prop :=
  so.findBase = true → ∃ b, db.deref so.reqNdn = some b ∧ so.eid = some b.id ∧ b.ndn = so.base

structure Live (db : EntryDb) (late : Nat → Bool) (si : Provider) (i : Nat) : Prop where
  here : si.gone i = false
  base : (si.heap i).HasBase db
  kept : (si.heap i).inScope (op.fdn false) = true → late i = false

def Third (so : SyncOp) : Prop := ¬ (0 < op.osid ∧ op.osid = so.sid) ∧ ¬ (0 < op.rsid ∧ op.rsid = so.sid)

structure Performed (db db' : EntryDb) : Prop where
  added : op.tag = .add → db.get op.ndn = none ∧ db'.get op.ndn = some op.entry
  deleted : op.tag = .delete → db'.get op.ndn = none
  renamed : op.tag = .modrdn → (db'.get (op.fdn false)).isSome

/-- The response does not fail, and every other live search has got the message that it should. -/
def Notified (db db' : EntryDb) (late : Nat → Bool) (st : Pass) : Prop :=
  ∃ st', opResponse cfg op db' late st = some st' ∧
    ∀ i, Live op db' late st.si i → Third op (st.si.heap i) →
      st'.opc.changes i = expected (op.before cfg db st.si i) (op.after cfg db' st.si i)

/-- The changes that the code foresees: only an add or a delete makes an entry come or go, a rename leaves no
search without the entry, and what is not replicated is not seen. -/
def Foreseen (before after : Bool) : Prop :=
  if (op.tag = .modify ∧ op.ctxUpdate.isSome) ∨ op.dontReplicate then before = false ∧ after = false
  else match op.tag with
    | .add | .delete => True
    | .modify | .extended => before = after
    | .modrdn => before = true ∧ after = true

end

section

variable {cfg : NotifyConfig} {op : WriteOp} {st st' : Pass} {i : Nat} {mode : SyncMode}

def OpCookie.Cookied (opc : OpCookie) : Prop := ∃ ri, opc.info = some ri ∧ ri.cookie ≠ none

def CookieReady (st : Pass) : Prop :=
  st.si.cookie.Verified ∧ ∀ c, st.opc.sctxcsn = some c → (∃ p ∈ st.si.cookie.csns, p.2 = c) ∨ st.opc.Cookied

structure Queued (i : Nat) (mode : SyncMode) (st st' : Pass) : Prop where
  si : st'.si = st.si.set i (st.si.heap i).queued
  smatches : st'.opc.smatches = st.opc.smatches
  osid : st'.opc.osid = st.opc.osid
  rsid : st'.opc.rsid = st.opc.rsid
  sctxcsn : st'.opc.sctxcsn = st.opc.sctxcsn
  se : st.opc.se = none → st'.opc.se = none
  info : st'.opc.info.isSome
  cookied : st.opc.Cookied ∨ mode = .newCookie → st'.opc.Cookied
  other : ∀ x ≠ i, st'.opc.changes x = st.opc.changes x
  self : st'.opc.changes i = if mode = .newCookie then st.opc.changes i else mode :: st.opc.changes i

theorem composeCookie_some {ck : SyncCookie} {sctxcsn : Option Csn} {ri : ResInfo}
    (h : ri.cookie = none → ck.Verified ∧ ∀ c, sctxcsn = some c → ∃ p ∈ ck.csns, p.2 = c) :
    ∃ cookie, composeCookie cfg ck sctxcsn mode ri = some { ri with cookie := cookie } ∧
      (ri.cookie ≠ none ∨ mode = .newCookie → cookie ≠ none) := by
  unfold composeCookie
  by_cases hm : mode = .newCookie ∧ ri.cookie = none
  · rw [if_pos hm, if_neg fun hbad => hbad.2 (h hm.2)]
    exact ⟨_, rfl, by simp⟩
  · rw [if_neg hm]
    refine ⟨ri.cookie, rfl, ?_⟩
    intro hor hnone
    exact hor.elim (fun hne => hne hnone) fun hmode => hm ⟨hmode, hnone⟩

theorem qresp_gone (h : st.si.gone i = true) : qresp cfg st i mode = some st := by
  unfold qresp
  rw [if_pos h]

theorem newInfo_fresh {opc : OpCookie} {ri : ResInfo} (h : newInfo opc mode = some ri) : ri.cookie = none ∧ ri.list = [] := by
  unfold newInfo at h
  cases hse : opc.se with
  | none =>
    rw [hse] at h
    dsimp only at h
    split_ifs at h
    cases h
    exact ⟨rfl, rfl⟩
  | some e =>
    rw [hse] at h
    dsimp only at h
    split_ifs at h
    cases h
    exact ⟨rfl, rfl⟩

theorem shareInfo_spec {opc : OpCookie} (hinfo : opc.info = none → newInfo opc mode ≠ none) :
    ∃ se ri, shareInfo opc mode = some ({ opc with se := se }, ri) ∧ (opc.se = none → se = none) ∧
      (ri.cookie ≠ none ↔ opc.Cookied) ∧
      ∀ x, opc.changes x = (ri.list.filter fun m => m.1 = x ∧ m.2 ≠ .newCookie).map Prod.snd := by
  obtain hsome | ⟨ri, hsome⟩ := eq_none_or_eq_some opc.info
  · obtain ⟨ri, hri⟩ := Option.ne_none_iff_exists'.mp (hinfo hsome)
    obtain ⟨hcookie, hlist⟩ := newInfo_fresh hri
    refine ⟨none, ri, by simp [shareInfo, hsome, hri], fun _ => rfl, ?_, ?_⟩
    · simp [OpCookie.Cookied, hsome, hcookie]
    · simp [OpCookie.changes, hsome, hlist]
  · refine ⟨opc.se, ri, ?_, id, ?_, ?_⟩
    · change shareInfo opc mode = some (opc, ri)
      unfold shareInfo
      rw [hsome]
    · simp [OpCookie.Cookied, hsome]
    · simp [OpCookie.changes, hsome]

theorem qresp_spec (hhere : st.si.gone i = false) (hck : CookieReady st)
    (hinfo : st.opc.info = none → newInfo st.opc mode ≠ none) :
    ∃ st', qresp cfg st i mode = some st' ∧ Queued i mode st st' := by
  obtain ⟨se, ri, hshare, hse, hcookied, hlist⟩ := shareInfo_spec hinfo
  obtain ⟨cookie, hc, hset⟩ := @composeCookie_some cfg mode st.si.cookie st.opc.sctxcsn
    { ri with list := (i, mode) :: ri.list } (by
      intro hnone
      refine ⟨hck.1, fun c hcsn => ?_⟩
      exact (hck.2 c hcsn).resolve_right fun h => hcookied.mpr h hnone)
  unfold qresp
  rw [if_neg (by simp [hhere]), hshare]
  dsimp only
  rw [hc]
  refine ⟨_, rfl, rfl, rfl, rfl, rfl, rfl, hse, rfl, ?_, ?_, ?_⟩
  · intro h
    exact ⟨_, rfl, hset (h.imp_left hcookied.mpr)⟩
  · intro x hx
    rw [hlist]
    simp [OpCookie.changes, Ne.symm hx]
  · rw [hlist]
    by_cases hm : mode = .newCookie <;> simp [OpCookie.changes, hm]

namespace Provider

variable {si : Provider} {so : SyncOp} {x : Nat}

@[simp]
theorem set_heap_self : (si.set i so).heap i = so := by simp [set]

@[simp]
theorem set_heap_ne (h : x ≠ i) : (si.set i so).heap x = si.heap x := by simp [set, h]

@[simp]
theorem set_ops : (si.set i so).ops = si.ops := rfl

@[simp]
theorem set_set {so' : SyncOp} : (si.set i so).set i so' = si.set i so' := by simp [set]

theorem gone_eq_false : si.gone i = false ↔ i ∈ si.ops ∧ (si.heap i).abandoned = false ∧ (si.heap i).dead = false := by
  simp [gone, and_assoc]

theorem Wf.set (h : si.Wf) (hso : so.Wf) : (si.set i so).Wf := by
  refine ⟨h.nodup, ?_, h.cookie⟩
  intro x hx
  by_cases hxi : x = i
  · rw [hxi, set_heap_self]
    exact hso
  · rw [set_heap_ne hxi]
    exact h.search x hx

theorem killLocked_spec (h : si.Wf) (hi : i ∈ si.ops) (hdead : (si.heap i).abandoned = true ∨ (si.heap i).dead = true) :
    ∃ si', si.killLocked i = some si' ∧ si'.Wf ∧ si'.cookie = si.cookie ∧ (∀ x ≠ i, si'.heap x = si.heap x) ∧
      (∀ x ≠ i, x ∈ si'.ops ↔ x ∈ si.ops) ∧ ((si'.heap i).opMatch = (si.heap i).opMatch ∧
      (si'.heap i).inuse = (si.heap i).inuse) ∧ si'.gone i = true ∧ (i ∈ si'.ops → si'.heap i = si.heap i) := by
  have hso := h.search i hi
  have hgone : si.gone i = true := by
    cases hdead with
    | inl hab => simp [gone, hab]
    | inr hd => simp [gone, hd]
  unfold killLocked
  cases hp : (si.heap i).playback with
  | true =>
    rw [hso.playback hp]
    exact ⟨si, rfl, h, rfl, fun _ _ => rfl, fun _ _ => Iff.rfl, ⟨rfl, rfl⟩, hgone, fun _ => rfl⟩
  | false =>
    dsimp only [unlinkSearch]
    rw [if_pos hso.opSearch]
    refine ⟨_, rfl, ⟨h.nodup.erase i, ?_, h.cookie⟩, rfl, ?_, ?_, ?_, ?_, ?_⟩
    · intro x hx
      have hx : x ≠ i ∧ x ∈ si.ops := (h.nodup.mem_erase_iff).mp hx
      have hheap : (si.set i { si.heap i with opSearch := false }).heap x = si.heap x := set_heap_ne hx.1
      exact hheap ▸ h.search x hx.2
    · intro x hx
      exact set_heap_ne hx
    · intro x hx
      exact mem_erase_of_ne hx
    · simp
    · simp [gone, h.nodup.mem_erase_iff]
    · intro hi
      exact absurd rfl (h.nodup.mem_erase_iff.mp hi).1

theorem takeMatch_spec {sms : List Nat} (h : ∀ x ∈ sms, (si.heap x).opMatch = true ∧ 0 < (si.heap x).inuse) :
    si.takeMatch i sms = some (decide (i ∈ sms), sms.erase i) := by
  induction sms with
  | nil => simp [takeMatch]
  | cons sm sms ih =>
    unfold takeMatch
    rw [if_pos (h sm (mem_cons_self ..)), ih fun x hx => h x (mem_cons_of_mem _ hx)]
    by_cases hsm : sm = i
    · simp [hsm]
    · simp [hsm, Ne.symm hsm]

end Provider

theorem SyncOp.findbase_of_base {db : EntryDb} {so : SyncOp} (h : so.HasBase db) (fdn : List Byte) :
    so.findbase db fdn = ({ so with findBase := false }, some (so.inScope fdn)) := by
  unfold findbase
  cases hf : so.findBase with
  | true =>
    obtain ⟨b, hb, hid, hndn⟩ := h hf
    simp [hb, hid, hndn, inScope]
  | false =>
    cases so
    simp_all

theorem SyncOp.findbase_of_lost {db : EntryDb} {so : SyncOp} (h : ¬ so.HasBase db) (heid : so.eid.isSome) (fdn : List Byte) :
    so.findbase db fdn = ({ so with findBase := false }, none) := by
  obtain ⟨id, hid⟩ := Option.isSome_iff_exists.mp heid
  have hf : so.findBase = true := by
    by_contra hf
    exact h fun hf' => absurd hf' hf
  unfold findbase
  rw [if_pos hf]
  dsimp only
  cases hb : db.deref so.reqNdn with
  | none => rfl
  | some b =>
    dsimp only
    rw [hid]
    dsimp only
    rw [if_neg]
    intro hsame
    exact h fun _ => ⟨b, hb, by rw [hid, hsame.1], hsame.2⟩

/-- The assertions of `syncprov_matchops` on the operation. -/
def combined (tag : Tag) : Bool → Bool → Bool
  | true, true => tag = .modify ∨ tag = .extended ∨ tag = .modrdn
  | false, true => tag = .add
  | true, false => tag = .delete
  | false, false => tag = .modify ∨ tag = .extended ∨ tag = .add

def modeOf : Bool → Bool → SyncMode
  | true, true => .modify
  | false, true => .add
  | true, false => .delete
  | false, false => .newCookie

variable {fscope : Bool} {ck : SyncCookie}

theorem notify_eq {found : Bool} {rc : BackMdb.Compare} (hrc : rc ≠ .success) :
    notify cfg op st i fscope found (if fscope then rc else .success) =
      if combined op.tag found (fscope && decide (rc = .true)) then
        qresp cfg st i (modeOf found (fscope && decide (rc = .true)))
      else none := by
  unfold notify
  cases fscope with
  | false => cases found <;> simp [combined, modeOf]
  | true =>
    by_cases ht : rc = .true
    · cases found <;> simp [combined, modeOf, ht]
    · cases found <;> simp [combined, modeOf, ht, hrc]

structure SendInv (op : WriteOp) (st : Pass) : Prop where
  osid : st.opc.osid = op.osid
  rsid : st.opc.rsid = op.rsid
  wf : st.si.Wf
  nodup : st.opc.smatches.Nodup
  held : ∀ x ∈ st.opc.smatches, (st.si.heap x).opMatch = true ∧ 0 < (st.si.heap x).inuse
  entry : st.opc.info = none → st.opc.se.isSome
  cookie : CookieReady st

structure Touched (i : Nat) (st st' : Pass) : Prop where
  heap : ∀ x ≠ i, st'.si.heap x = st.si.heap x
  ops : ∀ x ≠ i, x ∈ st'.si.ops ↔ x ∈ st.si.ops
  smatches : ∀ x ≠ i, x ∈ st'.opc.smatches ↔ x ∈ st.opc.smatches
  changes : ∀ x ≠ i, st'.opc.changes x = st.opc.changes x

def marked (op : WriteOp) (st : Pass) (i : Nat) : Pass where
  si := st.si.set i ((st.si.heap i).written op.ndn)
  opc := { st.opc with smatches := st.opc.smatches.erase i }

theorem visitSend_eq {late : Nat → Bool} {e : SyncEntry} (hinv : SendInv op st) : visitSend cfg op late e st i fscope =
      if fscope ∧ late i then
        (((marked op st i).si.set i { (marked op st i).si.heap i with abandoned := true }).killLocked i).map
          fun si => ⟨si, (marked op st i).opc⟩
      else
        (notify cfg op (marked op st i) i fscope (decide (i ∈ st.opc.smatches))
          (if fscope then searchTest cfg i (st.si.heap i) e else .success)).bind fun st' =>
            if decide (i ∈ st.opc.smatches) then (st'.si.unlinkMatch i).map fun si => { st' with si := si }
            else some st' := by
  unfold visitSend
  dsimp only
  rw [Provider.takeMatch_spec]
  · simp only [marked, Provider.set_heap_self]
    rfl
  · intro x hx
    by_cases hxi : x = i
    · rw [hxi, Provider.set_heap_self]
      exact hxi ▸ hinv.held x hx
    · rw [Provider.set_heap_ne hxi]
      exact hinv.held x hx

theorem visitSend_late {late : Nat → Bool} {e : SyncEntry} {fscope : Bool} (hinv : SendInv op st) (hi : i ∈ st.si.ops)
    (hlate : fscope = true ∧ late i = true) :
    ∃ st', visitSend cfg op late e st i fscope = some st' ∧ SendInv op st' ∧ Touched i st st' := by
  rw [visitSend_eq hinv, if_pos hlate]
  have hso := hinv.wf.search i hi
  have hwf : ((marked op st i).si.set i { (marked op st i).si.heap i with abandoned := true }).Wf := by
    simp only [marked, Provider.set_heap_self, Provider.set_set]
    exact hinv.wf.set ⟨hso.filter, hso.eid, hso.opSearch, hso.opMatch, hso.playback, by simp⟩
  obtain ⟨si', hkill, hwf', hck, hheap, hops, -⟩ := Provider.killLocked_spec hwf hi (by simp)
  have hheap : ∀ x ≠ i, si'.heap x = st.si.heap x := by
    intro x hx
    rw [hheap x hx, Provider.set_heap_ne hx]
    exact Provider.set_heap_ne hx
  rw [hkill]
  refine ⟨_, rfl, ⟨hinv.osid, hinv.rsid, hwf', hinv.nodup.erase i, ?_, hinv.entry, ?_⟩, ⟨hheap, hops, ?_, fun _ _ => rfl⟩⟩
  · intro x hx
    have hx : x ≠ i ∧ x ∈ st.opc.smatches := (hinv.nodup.mem_erase_iff).mp hx
    dsimp only
    rw [hheap x hx.1]
    exact hinv.held x hx.2
  · unfold CookieReady
    dsimp only
    rw [hck]
    exact hinv.cookie
  · intro x hx
    exact mem_erase_of_ne hx

theorem visitSend_fail {late : Nat → Bool} {e : SyncEntry} (hinv : SendInv op st)
    (htest : searchTest cfg i (st.si.heap i) e ≠ .success) (hlate : ¬ (fscope = true ∧ late i = true))
    (hno : combined op.tag (decide (i ∈ st.opc.smatches))
      (fscope && decide (searchTest cfg i (st.si.heap i) e = .true)) = false) :
    visitSend cfg op late e st i fscope = none := by
  rw [visitSend_eq hinv, if_neg hlate, notify_eq htest, hno]
  rfl

theorem visitSend_spec {late : Nat → Bool} {e : SyncEntry} {fscope : Bool} (hinv : SendInv op st)
    (hhere : st.si.gone i = false) (hdel : op.tag ≠ .delete)
    (htest : searchTest cfg i (st.si.heap i) e ≠ .success) (hlate : ¬ (fscope = true ∧ late i = true))
    (hyes : combined op.tag (decide (i ∈ st.opc.smatches))
      (fscope && decide (searchTest cfg i (st.si.heap i) e = .true)) = true) :
    ∃ st', visitSend cfg op late e st i fscope = some st' ∧ SendInv op st' ∧ Touched i st st' ∧
      st'.opc.changes i = expected (decide (i ∈ st.opc.smatches))
        (fscope && decide (searchTest cfg i (st.si.heap i) e = .true)) ++ st.opc.changes i := by
  obtain ⟨hi, hab, hdead⟩ := Provider.gone_eq_false.mp hhere
  have hso := hinv.wf.search i hi
  rw [visitSend_eq hinv, if_neg hlate, notify_eq htest, if_pos hyes]
  set found := decide (i ∈ st.opc.smatches) with hfound
  set after := fscope && decide (searchTest cfg i (st.si.heap i) e = .true)
  have hmode : modeOf found after ≠ .delete := by
    cases hf : found <;> cases ha : after <;> simp_all [combined, modeOf]
  have hhere' : (marked op st i).si.gone i = false := by
    rw [Provider.gone_eq_false]
    simp [marked, SyncOp.written, hi, hab, hdead]
  obtain ⟨st1, hq, hst1⟩ := @qresp_spec cfg (marked op st i) i (modeOf found after) hhere' hinv.cookie (by
    intro hnone
    obtain ⟨e', he'⟩ := Option.isSome_iff_exists.mp (hinv.entry hnone)
    have hse : (marked op st i).opc.se = some e' := he'
    unfold newInfo
    rw [hse]
    cases hm : modeOf found after <;> simp_all)
  rw [hq, bind_some]
  have hsi1 : st1.si = st.si.set i ((st.si.heap i).written op.ndn).queued := by
    rw [hst1.si]
    simp [marked]
  have hplay : (st.si.heap i).playback = true ∨ (st.si.heap i).detached = true → (st.si.heap i).detached = true :=
    fun h => h.elim hso.playback id
  -- the match is released if there was one
  obtain ⟨so, hrun, hwf⟩ : ∃ so : SyncOp, (if found then (st1.si.unlinkMatch i).map fun si => ({ st1 with si := si } : Pass)
      else some st1) = some ⟨st.si.set i so, st1.opc⟩ ∧ so.Wf := by
    by_cases hf : found = true
    · have hheld := hinv.held i (by simpa [hfound] using hf)
      rw [if_pos hf, hsi1]
      unfold Provider.unlinkMatch
      rw [Provider.set_heap_self, if_pos (by simpa [SyncOp.queued, SyncOp.written] using hheld), map_some,
        Provider.set_set]
      refine ⟨_, rfl, ?_⟩
      exact ⟨hso.filter, hso.eid, hso.opSearch, rfl, by simpa [SyncOp.queued, SyncOp.released, SyncOp.written] using hplay, fun _ _ => rfl⟩
    · rw [if_neg hf]
      refine ⟨_, by rw [← hsi1], ?_⟩
      exact ⟨hso.filter, hso.eid, hso.opSearch, hso.opMatch, by simpa [SyncOp.queued, SyncOp.written] using hplay, fun _ _ => rfl⟩
  rw [hrun]
  refine ⟨_, rfl, ⟨hst1.osid.trans hinv.osid, hst1.rsid.trans hinv.rsid, hinv.wf.set hwf, ?_, ?_, ?_, ?_⟩, ⟨?_, ?_, ?_, ?_⟩, ?_⟩
  · dsimp only
    rw [hst1.smatches]
    exact hinv.nodup.erase i
  · dsimp only
    rw [hst1.smatches]
    intro x hx
    have hx : x ≠ i ∧ x ∈ st.opc.smatches := (hinv.nodup.mem_erase_iff).mp hx
    rw [Provider.set_heap_ne hx.1]
    exact hinv.held x hx.2
  · intro hnone
    have hnone : st1.opc.info = none := hnone
    exact absurd hst1.info (by simp [hnone])
  · refine ⟨hinv.cookie.1, fun c hc => ?_⟩
    dsimp only at hc
    rw [hst1.sctxcsn] at hc
    exact (hinv.cookie.2 c hc).imp_right fun h => hst1.cookied (.inl h)
  · intro x hx
    exact Provider.set_heap_ne hx
  · intro x hx
    rfl
  · intro x hx
    dsimp only
    rw [hst1.smatches]
    exact mem_erase_of_ne hx
  · intro x hx
    exact hst1.other x hx
  · dsimp only
    rw [hst1.self]
    have hchanges : (marked op st i).opc.changes i = st.opc.changes i := rfl
    cases hf : found <;> cases ha : after <;> simp [modeOf, expected, hchanges]

mutual

theorem testFilter_ne_success {leaf : BackMdb.Filter → BackMdb.Compare} (hleaf : ∀ f, leaf f ≠ .success) :
    ∀ f, ParsedFilter f → BackMdb.testFilter leaf f ≠ .success
  | .undefined, _ => by simp [BackMdb.testFilter]
  | .computed _, h => by simpa [BackMdb.testFilter, ParsedFilter] using h
  | .present _, _ => hleaf _
  | .equality _ _, _ => hleaf _
  | .approx _ _, _ => hleaf _
  | .substrings _ _ _ _, _ => hleaf _
  | .ge _ _, _ => hleaf _
  | .le _ _, _ => hleaf _
  | .not f, h => by
    have ih := testFilter_ne_success hleaf f h
    unfold BackMdb.testFilter
    cases hr : BackMdb.testFilter leaf f <;> simp_all
  | .and fs, h => testFilterAnd_ne_success hleaf fs h (by simp)
  | .or fs, h => testFilterOr_ne_success hleaf fs h (by simp)
  | .ext _, _ => hleaf _
  | .unknown, _ => by simp [BackMdb.testFilter]

theorem testFilterAnd_ne_success {leaf : BackMdb.Filter → BackMdb.Compare} (hleaf : ∀ f, leaf f ≠ .success) :
    ∀ fs {rtn : BackMdb.Compare}, ParsedList fs → rtn ≠ .success → BackMdb.testFilterAnd leaf rtn fs ≠ .success
  | .last f, rtn, h, hrtn => by
    have ih := testFilter_ne_success hleaf f h
    unfold BackMdb.testFilterAnd
    cases hr : BackMdb.testFilter leaf f <;> simp_all
  | .cons f fs, rtn, h, hrtn => by
    have ih := testFilter_ne_success hleaf f h.1
    unfold BackMdb.testFilterAnd
    cases hr : BackMdb.testFilter leaf f with
    | false => simp
    | true => exact testFilterAnd_ne_success hleaf fs h.2 hrtn
    | undefined => exact testFilterAnd_ne_success hleaf fs h.2 (by simp)
    | success => exact absurd hr ih
    | other code => exact testFilterAnd_ne_success hleaf fs h.2 (by simp)

theorem testFilterOr_ne_success {leaf : BackMdb.Filter → BackMdb.Compare} (hleaf : ∀ f, leaf f ≠ .success) :
    ∀ fs {rtn : BackMdb.Compare}, ParsedList fs → rtn ≠ .success → testFilterOr leaf rtn fs ≠ .success
  | .last f, rtn, h, hrtn => by
    have ih := testFilter_ne_success hleaf f h
    unfold testFilterOr
    cases hr : BackMdb.testFilter leaf f <;> simp_all
  | .cons f fs, rtn, h, hrtn => by
    have ih := testFilter_ne_success hleaf f h.1
    unfold testFilterOr
    cases hr : BackMdb.testFilter leaf f with
    | false => exact testFilterOr_ne_success hleaf fs h.2 hrtn
    | true => simp
    | undefined => exact testFilterOr_ne_success hleaf fs h.2 (by simp)
    | success => exact absurd hr ih
    | other code => exact testFilterOr_ne_success hleaf fs h.2 (by simp)

end

theorem searchTest_ne_success {so : SyncOp} (h : so.Wf) (i : Nat) (e : SyncEntry) : searchTest cfg i so e ≠ .success :=
  testFilter_ne_success (cfg.leaf_ne i e) _ h.filter

theorem SyncOp.Wf.found {so : SyncOp} (h : so.Wf) : ({ so with findBase := false } : SyncOp).Wf :=
  ⟨h.filter, h.eid, h.opSearch, h.opMatch, h.playback, h.wroteBase⟩

theorem SyncOp.Wf.lost {so : SyncOp} (h : so.Wf) :
    ({ so with findBase := false, dead := true, lostBase := true } : SyncOp).Wf :=
  ⟨h.filter, h.eid, h.opSearch, h.opMatch, h.playback, by simp⟩

theorem SendInv.set {so : SyncOp} (h : SendInv op st) (hso : so.Wf) (hmatch : so.opMatch = (st.si.heap i).opMatch)
    (hinuse : so.inuse = (st.si.heap i).inuse) : SendInv op { st with si := st.si.set i so } := by
  refine ⟨h.osid, h.rsid, h.wf.set hso, h.nodup, ?_, h.entry, h.cookie⟩
  intro x hx
  by_cases hxi : x = i
  · simpa [hxi, hmatch, hinuse] using h.held i (hxi ▸ hx)
  · simpa [hxi] using h.held x hx

variable {db : EntryDb} {late : Nat → Bool} {e : SyncEntry}

theorem visit_other (hinv : SendInv op st) (hdel : op.tag ≠ .delete)
    (hnot : ¬ (Live op db late st.si i ∧ Third op (st.si.heap i))) :
    ∃ st', visitSearch cfg op false db late e st i = some st' ∧ SendInv op st' ∧ Touched i st st' := by
  have hrefl : Touched i st st := ⟨fun _ _ => rfl, fun _ _ => Iff.rfl, fun _ _ => Iff.rfl, fun _ _ => rfl⟩
  unfold visitSearch
  dsimp only
  by_cases hgone : st.si.gone i = true
  · rw [if_pos hgone]
    exact ⟨st, rfl, hinv, hrefl⟩
  have hhere : st.si.gone i = false := by simpa using hgone
  obtain ⟨hi, hab, hdead⟩ := Provider.gone_eq_false.mp hhere
  have hso := hinv.wf.search i hi
  rw [if_neg hgone, if_neg (by simp [hso.opSearch]), hinv.osid, hinv.rsid]
  by_cases horig : 0 < op.osid ∧ op.osid = (st.si.heap i).sid
  · rw [if_pos ⟨hdel, horig⟩]
    exact ⟨st, rfl, hinv, hrefl⟩
  by_cases hrelay : 0 < op.rsid ∧ op.rsid = (st.si.heap i).sid
  · rw [if_neg fun h => horig h.2, if_pos hrelay]
    exact ⟨st, rfl, hinv, hrefl⟩
  rw [if_neg fun h => horig h.2, if_neg hrelay]
  by_cases hbase : (st.si.heap i).HasBase db
  · rw [SyncOp.findbase_of_base hbase]
    dsimp only
    have hlate : (st.si.heap i).inScope (op.fdn false) = true ∧ late i = true := by
      by_contra hlate
      refine hnot ⟨⟨hhere, hbase, fun hs => ?_⟩, horig, hrelay⟩
      simpa [hs] using hlate
    obtain ⟨st', hrun, hinv', ht⟩ := @visitSend_late cfg op _ i late e ((st.si.heap i).inScope (op.fdn false))
      (hinv.set hso.found rfl rfl) hi hlate
    refine ⟨st', hrun, hinv', ⟨fun x hx => ?_, ht.ops, ht.smatches, ht.changes⟩⟩
    rw [ht.heap x hx]
    exact Provider.set_heap_ne hx
  · rw [SyncOp.findbase_of_lost hbase hso.eid]
    dsimp only
    have hinv' : SendInv op { st with si := st.si.set i _ } := hinv.set hso.lost rfl rfl
    obtain ⟨si', hkill, hwf', hck, hheap, hops, hsame, -⟩ := Provider.killLocked_spec hinv'.wf hi (by simp)
    rw [hkill]
    refine ⟨_, rfl, ⟨hinv.osid, hinv.rsid, hwf', hinv.nodup, ?_, hinv.entry, ?_⟩, ⟨?_, hops, fun _ _ => Iff.rfl, fun _ _ => rfl⟩⟩
    · intro x hx
      by_cases hxi : x = i
      · simpa [hxi, hsame] using hinv.held i (hxi ▸ hx)
      · simpa [hxi, hheap x hxi] using hinv.held x hx
    · unfold CookieReady
      dsimp only
      rw [hck]
      exact hinv.cookie
    · intro x hx
      simp [hheap x hx, hx]

theorem visit_live_eq (hinv : SendInv op st) (hlive : Live op db late st.si i) (hthird : Third op (st.si.heap i)) :
    visitSearch cfg op false db late e st i =
      visitSend cfg op late e { st with si := st.si.set i { st.si.heap i with findBase := false } } i
        ((st.si.heap i).inScope (op.fdn false)) := by
  obtain ⟨hi, -, -⟩ := Provider.gone_eq_false.mp hlive.here
  unfold visitSearch
  dsimp only
  rw [if_neg (by simp [hlive.here]), if_neg (by simp [(hinv.wf.search i hi).opSearch]), hinv.osid, hinv.rsid,
    if_neg fun h => hthird.1 h.2, if_neg hthird.2, SyncOp.findbase_of_base hlive.base]
  rfl

theorem searchTest_found (cfg : NotifyConfig) (si : Provider) (i : Nat) (e : SyncEntry) :
    searchTest cfg i ((si.set i { si.heap i with findBase := false }).heap i) e = searchTest cfg i (si.heap i) e := by
  rw [Provider.set_heap_self]
  rfl

def seenBy (cfg : NotifyConfig) (op : WriteOp) (e : SyncEntry) (si : Provider) (i : Nat) : Bool :=
  (si.heap i).inScope (op.fdn false) && decide (searchTest cfg i (si.heap i) e = .true)

theorem visit_live (hinv : SendInv op st) (hdel : op.tag ≠ .delete) (hlive : Live op db late st.si i)
    (hthird : Third op (st.si.heap i)) (hyes : combined op.tag (decide (i ∈ st.opc.smatches)) (seenBy cfg op e st.si i) = true) :
    ∃ st', visitSearch cfg op false db late e st i = some st' ∧ SendInv op st' ∧ Touched i st st' ∧
      st'.opc.changes i = expected (decide (i ∈ st.opc.smatches)) (seenBy cfg op e st.si i) ++ st.opc.changes i := by
  obtain ⟨hi, hab, hdead⟩ := Provider.gone_eq_false.mp hlive.here
  have hso := hinv.wf.search i hi
  have hhere : (st.si.set i { st.si.heap i with findBase := false }).gone i = false := by
    rw [Provider.gone_eq_false]
    simp [hi, hab, hdead]
  have htest := searchTest_found cfg st.si i e
  obtain ⟨st', hrun, hinv', ht, hch⟩ := @visitSend_spec cfg op _ i late e ((st.si.heap i).inScope (op.fdn false))
    (hinv.set hso.found rfl rfl) hhere hdel (htest ▸ searchTest_ne_success hso i e)
    (fun h => by simp [hlive.kept h.1] at h) (by rw [htest]; exact hyes)
  rw [visit_live_eq hinv hlive hthird]
  refine ⟨st', hrun, hinv', ⟨?_, ht.ops, ht.smatches, ht.changes⟩, ?_⟩
  · intro x hx
    rw [ht.heap x hx]
    exact Provider.set_heap_ne hx
  · rw [hch, htest]
    rfl

theorem visit_fail (hinv : SendInv op st) (hlive : Live op db late st.si i) (hthird : Third op (st.si.heap i))
    (hno : combined op.tag (decide (i ∈ st.opc.smatches)) (seenBy cfg op e st.si i) = false) :
    visitSearch cfg op false db late e st i = none := by
  obtain ⟨hi, -, -⟩ := Provider.gone_eq_false.mp hlive.here
  have hso := hinv.wf.search i hi
  have htest := searchTest_found cfg st.si i e
  rw [visit_live_eq hinv hlive hthird]
  exact visitSend_fail (hinv.set hso.found rfl rfl) (htest ▸ searchTest_ne_success hso i e)
    (fun h => by simp [hlive.kept h.1] at h) (by rw [htest]; exact hno)

theorem Touched.live {x : Nat} (h : Touched i st st') (hx : x ≠ i) : Live op db late st'.si x ↔ Live op db late st.si x := by
  have hgone : st'.si.gone x = st.si.gone x := by simp [Provider.gone, h.heap x hx, h.ops x hx]
  constructor
  · intro ⟨hhere, hbase, hkept⟩
    rw [hgone] at hhere
    rw [h.heap x hx] at hbase hkept
    exact ⟨hhere, hbase, hkept⟩
  · intro ⟨hhere, hbase, hkept⟩
    rw [← hgone] at hhere
    rw [← h.heap x hx] at hbase hkept
    exact ⟨hhere, hbase, hkept⟩

theorem Touched.seenBy {x : Nat} (h : Touched i st st') (hx : x ≠ i) : seenBy cfg op e st'.si x = seenBy cfg op e st.si x := by
  unfold Sync.seenBy
  rw [h.heap x hx]

def Served (op : WriteOp) (db : EntryDb) (late : Nat → Bool) (st : Pass) (i : Nat) : Prop :=
  Live op db late st.si i ∧ Third op (st.si.heap i)

theorem send_run {l : List Nat} (hinv : SendInv op st) (hdel : op.tag ≠ .delete) (hl : l.Nodup) :
    (∃ st', l.foldlM (visitSearch cfg op false db late e) st = some st' ∧
      (∀ x ∈ l, Served op db late st x → combined op.tag (decide (x ∈ st.opc.smatches)) (seenBy cfg op e st.si x) = true ∧
        st'.opc.changes x = expected (decide (x ∈ st.opc.smatches)) (seenBy cfg op e st.si x) ++ st.opc.changes x) ∧
      ∀ x ∉ l, st'.opc.changes x = st.opc.changes x) ∨
    l.foldlM (visitSearch cfg op false db late e) st = none ∧
      ∃ x ∈ l, Served op db late st x ∧
        combined op.tag (decide (x ∈ st.opc.smatches)) (seenBy cfg op e st.si x) = false := by
  induction l generalizing st with
  | nil => exact .inl ⟨st, rfl, by simp, by simp⟩
  | cons i l ih =>
    obtain ⟨hi, hl⟩ := List.nodup_cons.mp hl
    have hne : ∀ x ∈ l, x ≠ i := fun x hx hxi => hi (hxi ▸ hx)
    -- what the first round gives the other rounds
    have hrest : ∀ st1, Touched i st st1 → ∀ x ∈ l, (Served op db late st1 x ↔ Served op db late st x) ∧
        decide (x ∈ st1.opc.smatches) = decide (x ∈ st.opc.smatches) ∧
        seenBy cfg op e st1.si x = seenBy cfg op e st.si x ∧ st1.opc.changes x = st.opc.changes x := by
      intro st1 ht x hx
      have hxi := hne x hx
      unfold Served
      rw [ht.live hxi, ht.heap x hxi, ht.seenBy hxi, ht.changes x hxi]
      simp [ht.smatches x hxi]
    by_cases hserved : Served op db late st i ∧
        combined op.tag (decide (i ∈ st.opc.smatches)) (seenBy cfg op e st.si i) = false
    · refine .inr ⟨?_, i, by simp, hserved⟩
      rw [foldlM_cons, visit_fail hinv hserved.1.1 hserved.1.2 hserved.2]
      rfl
    · obtain ⟨st1, hrun1, hinv1, ht, hself⟩ : ∃ st1, visitSearch cfg op false db late e st i = some st1 ∧ SendInv op st1 ∧
          Touched i st st1 ∧ (Served op db late st i →
            combined op.tag (decide (i ∈ st.opc.smatches)) (seenBy cfg op e st.si i) = true ∧
            st1.opc.changes i = expected (decide (i ∈ st.opc.smatches)) (seenBy cfg op e st.si i) ++ st.opc.changes i) := by
        by_cases hs : Served op db late st i
        · have hyes : combined op.tag (decide (i ∈ st.opc.smatches)) (seenBy cfg op e st.si i) = true := by
            simpa [hs] using hserved
          obtain ⟨st1, hrun1, hinv1, ht, hch⟩ := visit_live hinv hdel hs.1 hs.2 hyes
          exact ⟨st1, hrun1, hinv1, ht, fun _ => ⟨hyes, hch⟩⟩
        · obtain ⟨st1, hrun1, hinv1, ht⟩ := @visit_other cfg op st i db late e hinv hdel hs
          exact ⟨st1, hrun1, hinv1, ht, fun h => absurd h hs⟩
      rw [foldlM_cons, hrun1]
      cases ih hinv1 hl with
      | inl hok =>
        obtain ⟨st2, hrun2, hmem, hother⟩ := hok
        refine .inl ⟨st2, hrun2, ?_, ?_⟩
        · intro x hx hs
          cases List.mem_cons.mp hx with
          | inl hxi =>
            subst hxi
            rw [hother x hi]
            exact hself hs
          | inr hx =>
            obtain ⟨hiff, hfound, hseen, hch⟩ := hrest st1 ht x hx
            have h := hmem x hx (hiff.mpr hs)
            rwa [hfound, hseen, hch] at h
        · intro x hx
          rw [mem_cons, not_or] at hx
          rw [hother x hx.2, ht.changes x hx.1]
      | inr hbad =>
        obtain ⟨hnone, x, hx, hs, hno⟩ := hbad
        obtain ⟨hiff, hfound, hseen, -⟩ := hrest st1 ht x hx
        refine .inr ⟨hnone, x, mem_cons_of_mem _ hx, hiff.mp hs, ?_⟩
        rwa [hfound, hseen] at hno

/-! ## The cookie -/

theorem mergeCsn_verified (h : ck.Verified) (c : Csn) : (ck.slapCookieMergeCsn c.sid c).1.Verified := by
  have hone : SyncCookie.Verified ⟨0, 0, [(c.sid, c)]⟩ := ⟨by simp [DupSort.SortedBy], by simpa using c.sid_le⟩
  rw [← mergeRound_fst none]
  exact merge_verified h hone

theorem mergeCsn_mem (h : ck.Verified) {c : Csn} (hgt : (ck.slapCookieMergeCsn c.sid c).2 = .gt) :
    ∃ p ∈ (ck.slapCookieMergeCsn c.sid c).1.csns, p.2 = c := by
  refine ⟨(c.sid, c), ?_, rfl⟩
  revert hgt
  unfold slapCookieMergeCsn
  dsimp only
  cases hget : ck.csns[scanSid c.sid ck.csns]? with
  | none =>
    intro _
    exact ((joined_insert h.1 (by simp [hget])).mem _ _).mpr (.inl ⟨rfl, rfl⟩)
  | some p =>
    obtain ⟨s, old⟩ := p
    dsimp only
    by_cases hs : c.sid = s
    · subst hs
      rw [if_pos rfl]
      intro hgt
      rw [if_pos hgt]
      exact ((joined_set h.1 hget (Csn.compareTs_gt.mp hgt)).mem _ _).mpr (.inl ⟨rfl, rfl⟩)
    · rw [if_neg hs]
      intro _
      refine ((joined_insert h.1 ?_).mem _ _).mpr (.inl ⟨rfl, rfl⟩)
      intro p hp hps
      rw [hget] at hp
      cases hp
      exact hs hps.symm

theorem mergeCsnset_verified (h : ck.Verified) (vals : List Csn) : (mergeCsnset ck vals).1.Verified := by
  have hany : ∀ r : SyncCookie × Bool, r.1.Verified →
      (vals.foldl (fun r v => let m := r.1.slapCookieMergeCsn v.sid v; (m.1, r.2 || m.2 = .gt)) r).1.Verified := by
    induction vals with
    | nil => exact fun _ hr => hr
    | cons v vals ih => exact fun r hr => ih _ (mergeCsn_verified hr v)
  exact hany _ h

theorem commitCsn_spec (h : ck.Verified) (commit : Option Csn) : (commitCsn ck commit).1.Verified ∧
    ((commitCsn ck commit).2 = true → ∀ c, commit = some c → ∃ p ∈ (commitCsn ck commit).1.csns, p.2 = c) := by
  cases commit with
  | none => exact ⟨h, by simp [commitCsn]⟩
  | some c =>
    refine ⟨mergeCsn_verified h c, ?_⟩
    intro hgt d hd
    cases hd
    exact mergeCsn_mem h (by simpa [commitCsn] using hgt)

structure Kept (st st' : Pass) : Prop where
  ops : st'.si.ops = st.si.ops
  heap : ∀ x, st'.si.heap x = st.si.heap x ∨ st'.si.heap x = (st.si.heap x).queued
  smatches : st'.opc.smatches = st.opc.smatches
  osid : st'.opc.osid = st.opc.osid
  rsid : st'.opc.rsid = st.opc.rsid
  sctxcsn : st'.opc.sctxcsn = st.opc.sctxcsn
  se : st.opc.se = none → st'.opc.se = none

theorem Kept.refl (st : Pass) : Kept st st := ⟨rfl, fun _ => .inl rfl, rfl, rfl, rfl, rfl, id⟩

theorem Kept.gone (h : Kept st st') (x : Nat) : st'.si.gone x = st.si.gone x := by
  unfold Provider.gone
  rw [h.ops]
  cases h.heap x with
  | inl hx => rw [hx]
  | inr hx =>
    rw [hx]
    rfl

theorem broadcast_run {l : List Nat} (hl : l.Nodup) (hck : CookieReady st)
    (hinfo : st.opc.info = none → newInfo st.opc mode ≠ none) :
    ∃ st', l.foldlM (fun st i => qresp cfg st i mode) st = some st' ∧ Kept st st' ∧ st'.si.cookie = st.si.cookie ∧
      (∀ x ∉ l, st'.si.heap x = st.si.heap x ∧ st'.opc.changes x = st.opc.changes x) ∧
      (∀ x ∈ l, st'.opc.changes x =
        if mode = .newCookie ∨ st.si.gone x = true then st.opc.changes x else mode :: st.opc.changes x) ∧
      ((st.opc.Cookied ∨ mode = .newCookie ∧ ∃ x ∈ l, st.si.gone x = false) → st'.opc.Cookied) := by
  induction l generalizing st with
  | nil =>
    exact ⟨st, rfl, .refl st, rfl, fun _ _ => ⟨rfl, rfl⟩, by simp, by simp⟩
  | cons i l ih =>
    obtain ⟨hi, hl⟩ := List.nodup_cons.mp hl
    rw [foldlM_cons]
    by_cases hgone : st.si.gone i = true
    · rw [qresp_gone hgone]
      obtain ⟨st', hrun, hb, hcookie, hother, hmem, hcookied⟩ := ih hl hck hinfo
      refine ⟨st', hrun, hb, hcookie, ?_, ?_, ?_⟩
      · intro x hx
        exact hother x fun hl => hx (mem_cons_of_mem _ hl)
      · intro x hx
        by_cases hxi : x = i
        · rw [hxi, (hother i hi).2, if_pos (.inr hgone)]
        · exact hmem x ((List.mem_cons.mp hx).resolve_left hxi)
      · intro h
        refine hcookied (h.imp_right fun ⟨hmode, x, hx, hhere⟩ => ⟨hmode, x, ?_, hhere⟩)
        exact (List.mem_cons.mp hx).resolve_left fun hxi => by simp [← hxi, hhere] at hgone
    · obtain ⟨st1, hq, hst1⟩ := qresp_spec (by simpa using hgone) hck hinfo
      have hck1 : CookieReady st1 := by
        unfold CookieReady
        rw [hst1.si, hst1.sctxcsn]
        exact ⟨hck.1, fun c hc => (hck.2 c hc).imp_right fun h => hst1.cookied (.inl h)⟩
      obtain ⟨st', hrun, hb, hcookie, hother, hmem, hcookied⟩ := @ih st1 hl hck1 fun hnone => absurd hst1.info (by simp [hnone])
      rw [hq]
      have hself : st1.si.heap i = (st.si.heap i).queued := by simp [hst1.si]
      have hheap : ∀ x ≠ i, st1.si.heap x = st.si.heap x := fun x hx => by simp [hst1.si, hx]
      have hgone1 : ∀ x ≠ i, st1.si.gone x = st.si.gone x := fun x hx => by simp [Provider.gone, hst1.si, hx]
      refine ⟨st', hrun, ⟨?_, ?_, hb.smatches.trans hst1.smatches, hb.osid.trans hst1.osid,
        hb.rsid.trans hst1.rsid, hb.sctxcsn.trans hst1.sctxcsn, fun h => hb.se (hst1.se h)⟩, ?_, ?_, ?_, ?_⟩
      · rw [hb.ops, hst1.si]
        rfl
      · intro x
        by_cases hx : x = i
        · rw [hx, (hother i hi).1]
          exact .inr hself
        · rw [← hheap x hx]
          exact hb.heap x
      · rw [hcookie, hst1.si]
        rfl
      · intro x hx
        rw [mem_cons, not_or] at hx
        rw [(hother x hx.2).1, (hother x hx.2).2, hheap x hx.1, hst1.other x hx.1]
        exact ⟨rfl, rfl⟩
      · intro x hx
        by_cases hxi : x = i
        · rw [hxi, (hother i hi).2, hst1.self]
          simp [hgone]
        · rw [hmem x ((List.mem_cons.mp hx).resolve_left hxi), hgone1 x hxi, hst1.other x hxi]
      · intro h
        exact hcookied (.inl (hst1.cookied (h.imp_right And.left)))

theorem Kept.live {x : Nat} (h : Kept st st') (hwf : st.si.Wf) : Live op db late st'.si x ↔ Live op db late st.si x := by
  have hheap : st.si.gone x = false → ((st'.si.heap x).HasBase db ↔ (st.si.heap x).HasBase db) ∧
      (st'.si.heap x).inScope (op.fdn false) = (st.si.heap x).inScope (op.fdn false) := by
    intro hhere
    obtain ⟨hx, hab, hdead⟩ := Provider.gone_eq_false.mp hhere
    cases h.heap x with
    | inl heq =>
      rw [heq]
      exact ⟨Iff.rfl, rfl⟩
    | inr heq =>
      have hw := (hwf.search x hx).wroteBase hab hdead
      rw [heq]
      refine ⟨?_, rfl⟩
      simp [SyncOp.HasBase, SyncOp.queued, hw]
  constructor
  · intro ⟨hhere, hbase, hkept⟩
    have hhere : st.si.gone x = false := h.gone x ▸ hhere
    obtain ⟨hb, hs⟩ := hheap hhere
    exact ⟨hhere, hb.mp hbase, hs ▸ hkept⟩
  · intro ⟨hhere, hbase, hkept⟩
    obtain ⟨hb, hs⟩ := hheap hhere
    exact ⟨(h.gone x).trans hhere, hb.mpr hbase, hs ▸ hkept⟩

theorem Kept.same {x : Nat} (h : Kept st st') : (Third op (st'.si.heap x) ↔ Third op (st.si.heap x)) ∧
    (st'.si.heap x).opMatch = (st.si.heap x).opMatch ∧ (st'.si.heap x).inuse = (st.si.heap x).inuse := by
  cases h.heap x with
  | inl heq =>
    rw [heq]
    exact ⟨Iff.rfl, rfl, rfl⟩
  | inr heq =>
    rw [heq]
    exact ⟨Iff.rfl, rfl, rfl⟩

theorem Kept.seenBy {x : Nat} (h : Kept st st') : seenBy cfg op e st'.si x = seenBy cfg op e st.si x := by
  unfold Sync.seenBy
  cases h.heap x with
  | inl heq => rw [heq]
  | inr heq =>
    rw [heq]
    rfl

theorem Kept.wf (h : Kept st st') (hwf : st.si.Wf) (hck : st'.si.cookie.Verified) : st'.si.Wf := by
  refine ⟨h.ops ▸ hwf.nodup, ?_, hck⟩
  intro x hx
  have hso := hwf.search x (h.ops ▸ hx)
  cases h.heap x with
  | inl heq => exact heq ▸ hso
  | inr heq =>
    rw [heq]
    refine ⟨hso.filter, hso.eid, hso.opSearch, hso.opMatch, ?_, fun _ _ => rfl⟩
    have hplay := hso.playback
    simp only [SyncOp.queued, Bool.or_eq_true]
    exact fun h => h.elim hplay id

theorem newInfo_newCookie (opc : OpCookie) : newInfo opc .newCookie ≠ none := by
  unfold newInfo
  cases opc.se <;> simp

theorem newCtxcsn_spec (hwf : st.si.Wf) (hcsn : st.opc.sctxcsn = none) (vals : List Csn) (changed : Bool) :
    ∃ st', newCtxcsn cfg st vals changed = some st' ∧ Kept st st' ∧ st'.si.cookie.Verified ∧
      (changed = true → st'.opc.Cookied ∨ ∀ x, st.si.gone x = true) ∧ ∀ x, st'.opc.changes x = st.opc.changes x := by
  have hck := mergeCsnset_verified hwf.cookie vals
  unfold newCtxcsn
  dsimp only
  by_cases hgo : ((mergeCsnset st.si.cookie vals).2 || changed) = true
  · rw [if_pos hgo]
    obtain ⟨st', hrun, hkept, hcookie, hother, hmem, hcookied⟩ := @broadcast_run cfg
      (withCookie st (mergeCsnset st.si.cookie vals).1) .newCookie st.si.ops hwf.nodup
      ⟨hck, fun c hc => by simp [withCookie, hcsn] at hc⟩ fun _ => newInfo_newCookie _
    refine ⟨st', hrun, ⟨hkept.ops, hkept.heap, hkept.smatches, hkept.osid, hkept.rsid, hkept.sctxcsn, hkept.se⟩, ?_, ?_, ?_⟩
    · rw [hcookie]
      exact hck
    · intro _
      by_cases hall : ∃ x ∈ st.si.ops, st.si.gone x = false
      · exact .inl (hcookied (.inr ⟨rfl, hall⟩))
      · refine .inr fun x => ?_
        by_contra hx
        have hx : st.si.gone x = false := by simpa using hx
        exact hall ⟨x, (Provider.gone_eq_false.mp hx).1, hx⟩
    · intro x
      by_cases hx : x ∈ st.si.ops
      · exact (hmem x hx).trans (if_pos (.inl rfl))
      · exact (hother x hx).2
  · rw [if_neg hgo]
    refine ⟨_, rfl, ⟨rfl, fun _ => .inl rfl, rfl, rfl, rfl, rfl, id⟩, hck, ?_, fun _ => rfl⟩
    intro hc
    simp [hc] at hgo

structure Ready (op : WriteOp) (st : Pass) : Prop where
  osid : st.opc.osid = op.osid
  rsid : st.opc.rsid = op.rsid
  wf : st.si.Wf
  nodup : st.opc.smatches.Nodup
  held : ∀ x ∈ st.opc.smatches, (st.si.heap x).opMatch = true ∧ 0 < (st.si.heap x).inuse
  se : st.opc.se = none
  cookie : CookieReady st ∨ ∀ x, st.si.gone x = true

theorem noteEntry_fields (op : WriteOp) (saveit : Bool) (e : SyncEntry) (opc : OpCookie) :
    (noteEntry op saveit e opc).smatches = opc.smatches ∧ (noteEntry op saveit e opc).osid = opc.osid ∧
    (noteEntry op saveit e opc).rsid = opc.rsid ∧ (noteEntry op saveit e opc).sctxcsn = opc.sctxcsn ∧
    (noteEntry op saveit e opc).info = opc.info ∧
    (noteEntry op saveit e opc).se = if saveit then opc.se else some e := by
  unfold noteEntry
  cases saveit <;> dsimp only <;> split_ifs <;> simp_all

theorem foldlM_same {α β : Type} {f : β → α → Option β} {b : β} {l : List α} (h : ∀ a ∈ l, f b a = some b) :
    l.foldlM f b = some b := by
  induction l with
  | nil => rfl
  | cons a l ih =>
    rw [foldlM_cons, h a (by simp)]
    exact ih fun x hx => h x (mem_cons_of_mem _ hx)

theorem not_served (hgone : ∀ x, st.si.gone x = true) (x : Nat) : ¬ Served op db late st x := by
  intro hs
  have hhere := hs.1.here
  rw [hgone x] at hhere
  cases hhere

theorem dispatch_send (hr : Ready op st) (hdel : op.tag ≠ .delete) :
    (∃ st', dispatch cfg op db late st = some st' ∧ ∀ x, Served op db late st x →
      (op.target false db = none → st'.opc.changes x = st.opc.changes x) ∧
      ∀ e, op.target false db = some e → combined op.tag (decide (x ∈ st.opc.smatches)) (seenBy cfg op e st.si x) = true ∧
        st'.opc.changes x = expected (decide (x ∈ st.opc.smatches)) (seenBy cfg op e st.si x) ++ st.opc.changes x) ∨
    dispatch cfg op db late st = none ∧ ∃ e x, op.target false db = some e ∧ Served op db late st x ∧
      combined op.tag (decide (x ∈ st.opc.smatches)) (seenBy cfg op e st.si x) = false := by
  have hmem : ∀ x, Served op db late st x → x ∈ st.si.ops := fun x hs => (Provider.gone_eq_false.mp hs.1.here).1
  unfold dispatch
  by_cases hops : st.si.ops = []
  · rw [if_pos hops]
    refine .inl ⟨st, rfl, fun x hs => ?_⟩
    have hx := hmem x hs
    simp [hops] at hx
  rw [if_neg hops, if_neg hdel]
  unfold matchops
  cases htarget : op.target false db with
  | none => exact .inl ⟨st, rfl, fun x _ => ⟨fun _ => rfl, fun e he => by cases he⟩⟩
  | some e =>
    dsimp only
    obtain ⟨hsm, hosid, hrsid, hcsn, hinfo, hse⟩ := noteEntry_fields op false e st.opc
    rw [if_neg (by simp), hr.se, getD_none]
    cases hr.cookie with
    | inr hgone =>
      have hsame : ∀ x ∈ st.si.ops, visitSearch cfg op false db late e { st with opc := noteEntry op false e st.opc } x =
          some { st with opc := noteEntry op false e st.opc } := by
        intro x _
        unfold visitSearch
        dsimp only
        rw [if_pos (hgone x)]
      rw [foldlM_same hsame]
      exact .inl ⟨_, rfl, fun x hs => absurd hs (not_served hgone x)⟩
    | inl hck =>
      have hinv : SendInv op { st with opc := noteEntry op false e st.opc } := by
        refine ⟨hosid.trans hr.osid, hrsid.trans hr.rsid, hr.wf, hsm ▸ hr.nodup, ?_, fun _ => by simp [hse], ?_⟩
        · intro x hx
          exact hr.held x (hsm ▸ hx)
        · refine ⟨hck.1, fun c hc => ?_⟩
          have hcookied : st.opc.Cookied → (noteEntry op false e st.opc).Cookied := by
            unfold OpCookie.Cookied
            rw [hinfo]
            exact id
          exact (hck.2 c (hcsn ▸ hc)).imp_right hcookied
      have hch : ∀ x, (noteEntry op false e st.opc).changes x = st.opc.changes x := fun x => by simp [OpCookie.changes, hinfo]
      cases @send_run cfg op _ db late e st.si.ops hinv hdel hr.wf.nodup with
      | inl hok =>
        obtain ⟨st', hrun, hall, -⟩ := hok
        refine .inl ⟨st', hrun, fun x hs => ⟨nofun, fun e' he' => ?_⟩⟩
        cases he'
        have h := hall x (hmem x hs) hs
        rwa [hsm, hch] at h
      | inr hbad =>
        obtain ⟨hnone, x, -, hs, hno⟩ := hbad
        rw [hsm] at hno
        exact .inr ⟨hnone, e, x, rfl, hs, hno⟩

theorem dispatch_delete (hr : Ready op st) (hdel : op.tag = .delete) (hinfo : st.opc.info = none) :
    ∃ st', dispatch cfg op db late st = some st' ∧ ∀ x, Served op db late st x →
      st'.opc.changes x = if x ∈ st.opc.smatches then [.delete] else [] := by
  have hempty : ∀ x, st.opc.changes x = [] := fun x => by simp [OpCookie.changes, hinfo]
  unfold dispatch
  by_cases hops : st.si.ops = []
  · rw [if_pos hops]
    refine ⟨st, rfl, fun x hs => ?_⟩
    have hx := (Provider.gone_eq_false.mp hs.1.here).1
    simp [hops] at hx
  rw [if_neg hops, if_pos hdel]
  cases hr.cookie with
  | inr hgone =>
    have hsame : ∀ x ∈ st.opc.smatches, qresp cfg st x .delete = some st := fun x _ => qresp_gone (hgone x)
    rw [foldlM_same hsame]
    exact ⟨st, rfl, fun x hs => absurd hs (not_served hgone x)⟩
  | inl hck =>
    obtain ⟨st', hrun, -, -, hother, hmem, -⟩ := @broadcast_run cfg st .delete st.opc.smatches hr.nodup hck fun _ => by
      unfold newInfo
      rw [hr.se]
      simp
    refine ⟨st', hrun, fun x hs => ?_⟩
    by_cases hx : x ∈ st.opc.smatches
    · rw [hmem x hx, if_pos hx, hempty]
      simp [hs.1.here]
    · rw [(hother x hx).2, if_neg hx, hempty]

structure Started (op : WriteOp) (st : Pass) : Prop where
  osid : st.opc.osid = op.osid
  rsid : st.opc.rsid = op.rsid
  wf : st.si.Wf
  nodup : st.opc.smatches.Nodup
  held : ∀ x ∈ st.opc.smatches, (st.si.heap x).opMatch = true ∧ 0 < (st.si.heap x).inuse
  se : st.opc.se = none
  info : st.opc.info = none
  sctxcsn : st.opc.sctxcsn = none

theorem Started.changes (h : Started op st) (x : Nat) : st.opc.changes x = [] := by simp [OpCookie.changes, h.info]

theorem withCookie_live {x : Nat} : Live op db late (withCookie st ck).si x ↔ Live op db late st.si x :=
  ⟨fun h => ⟨h.here, h.base, h.kept⟩, fun h => ⟨h.here, h.base, h.kept⟩⟩

structure Dispatched (cfg : NotifyConfig) (op : WriteOp) (db : EntryDb) (late : Nat → Bool) (st st' : Pass) : Prop where
  ready : Ready op st'
  served : ∀ x, Served op db late st' x ↔ Served op db late st x
  seen : ∀ e x, seenBy cfg op e st'.si x = seenBy cfg op e st.si x
  smatches : st'.opc.smatches = st.opc.smatches
  changes : ∀ x, st'.opc.changes x = []
  info : op.tag = .delete → st'.opc.info = none

theorem addContext_spec {ck : SyncCookie} (hst : Started op st) (hck : ck.Verified) (changed : Bool)
    (hcommit : changed = true → ∀ c, op.commit = some c → ∃ p ∈ ck.csns, p.2 = c) :
    ∃ st', addContext cfg op (withCookie st ck) changed = some st' ∧ Kept (withCookie st ck) st' ∧ st'.si.cookie.Verified ∧
      (changed = true → (∀ c, op.commit = some c → (∃ p ∈ st'.si.cookie.csns, p.2 = c) ∨ st'.opc.Cookied) ∨
        ∀ x, st'.si.gone x = true) ∧
      (∀ x, st'.opc.changes x = []) ∧ (op.tag = .delete → st'.opc.info = none) := by
  have hsame : ∃ st', some (withCookie st ck) = some st' ∧ Kept (withCookie st ck) st' ∧ st'.si.cookie.Verified ∧
      (changed = true → (∀ c, op.commit = some c → (∃ p ∈ st'.si.cookie.csns, p.2 = c) ∨ st'.opc.Cookied) ∨
        ∀ x, st'.si.gone x = true) ∧
      (∀ x, st'.opc.changes x = []) ∧ (op.tag = .delete → st'.opc.info = none) :=
    ⟨_, rfl, .refl _, hck, fun h => .inl fun c hc => .inl (hcommit h c hc), hst.changes, fun _ => hst.info⟩
  unfold addContext
  by_cases hadd : op.tag = .add ∧ op.ndn = cfg.contextdn
  · rw [if_pos hadd]
    cases op.entry.contextCsn with
    | none => exact hsame
    | some vals =>
      have hwf : (withCookie st ck).si.Wf := ⟨hst.wf.nodup, hst.wf.search, hck⟩
      obtain ⟨st', hrun, hkept, hv, hcookied, hch⟩ := @newCtxcsn_spec cfg (withCookie st ck) hwf hst.sctxcsn vals changed
      refine ⟨st', hrun, hkept, hv, ?_, fun x => (hch x).trans (hst.changes x), fun h => by simp [hadd.1] at h⟩
      intro h
      cases hcookied h with
      | inl hc => exact .inl fun _ _ => .inr hc
      | inr hgone => exact .inr fun x => (hkept.gone x).trans (hgone x)
  · rw [if_neg hadd]
    exact hsame

theorem opResponse_replicated (hst : Started op st) (hctx : ¬ (op.tag = .modify ∧ op.ctxUpdate.isSome))
    (hrep : op.dontReplicate = false) :
    ∃ st', opResponse cfg op db late st = dispatch cfg op db late st' ∧ Dispatched cfg op db late st st' := by
  obtain ⟨hv, hmem⟩ := commitCsn_spec hst.wf.cookie op.commit
  obtain ⟨st1, hadd, hkept, hv1, hready, hch, hinfo⟩ := @addContext_spec cfg op st _ hst hv (commitCsn st.si.cookie op.commit).2 hmem
  unfold opResponse
  dsimp only
  rw [if_neg hctx, if_neg (by simp [hrep]), hadd, bind_some]
  have hwf : (withCookie st (commitCsn st.si.cookie op.commit).1).si.Wf := ⟨hst.wf.nodup, hst.wf.search, hv⟩
  refine ⟨_, rfl, ⟨hkept.osid.trans hst.osid, hkept.rsid.trans hst.rsid, hkept.wf hwf hv1, ?_, ?_, hkept.se hst.se, ?_⟩,
    ?_, ?_, hkept.smatches, hch, hinfo⟩
  · exact hkept.smatches ▸ hst.nodup
  · intro x hx
    have h := hst.held x (hkept.smatches ▸ hx)
    obtain ⟨-, hmatch, hinuse⟩ := @Kept.same op _ _ x hkept
    dsimp only
    rw [hmatch, hinuse]
    exact h
  · cases hchanged : (commitCsn st.si.cookie op.commit).2 with
    | false => exact .inl ⟨hv1, fun c hc => by simp at hc⟩
    | true =>
      refine (hready hchanged).imp_left fun h => ⟨hv1, fun c hc => h c ?_⟩
      simpa using hc
  · intro x
    unfold Served
    rw [show Live op db late _ x ↔ _ from hkept.live hwf, withCookie_live,
      hkept.same.1]
    exact Iff.rfl
  · intro e x
    exact hkept.seenBy

theorem after_eq {db' : EntryDb} (hdone : Performed op db db') (si : Provider) (x : Nat) :
    op.after cfg db' si x = match op.target false db' with
      | none => false
      | some e => seenBy cfg op e si x := by
  have hget : db'.get (op.fdn false) = op.target false db' := by
    unfold WriteOp.target
    by_cases hadd : op.tag = .add
    · rw [if_pos hadd, ← (hdone.added hadd).2]
      simp [WriteOp.fdn, hadd]
    · rw [if_neg hadd]
  unfold WriteOp.after sees
  rw [hget]
  rfl

theorem expected_eq_nil {before after : Bool} : expected before after = [] ↔ before = false ∧ after = false := by
  cases before <;> cases after <;> simp [expected]

theorem foreseen_iff {before after : Bool} (hctx : ¬ (op.tag = .modify ∧ op.ctxUpdate.isSome))
    (hrep : op.dontReplicate = false) (hdel : op.tag ≠ .delete) (hadd : op.tag = .add → before = false) :
    Foreseen op before after ↔ combined op.tag before after = true := by
  unfold Foreseen
  rw [if_neg (by simp [hrep] at hctx ⊢; exact hctx)]
  cases htag : op.tag with
  | add =>
    rw [hadd htag]
    cases after <;> simp [combined]
  | delete => exact absurd htag hdel
  | modify => cases before <;> cases after <;> simp [combined]
  | modrdn => cases before <;> cases after <;> simp [combined]
  | extended => cases before <;> cases after <;> simp [combined]

theorem opResponse_spec {db' : EntryDb} (hst : Started op st) (hdone : Performed op db db')
    (hfound : op.dontReplicate = false → ∀ x, Served op db' late st x →
      decide (x ∈ st.opc.smatches) = op.before cfg db st.si x) :
    Notified cfg op db db' late st ↔
      ∀ x, Served op db' late st x → Foreseen op (op.before cfg db st.si x) (op.after cfg db' st.si x) := by
  -- an operation that is not replicated queues nothing
  have hnothing : ∀ st', opResponse cfg op db' late st = some st' → (∀ x, st'.opc.changes x = []) →
      ((op.tag = .modify ∧ op.ctxUpdate.isSome) ∨ op.dontReplicate) → (Notified cfg op db db' late st ↔
        ∀ x, Served op db' late st x → Foreseen op (op.before cfg db st.si x) (op.after cfg db' st.si x)) := by
    intro st' hrun hch hnot
    unfold Foreseen
    simp only [if_pos hnot]
    constructor
    · intro ⟨st'', hrun', hall⟩ x hs
      have heq : st'' = st' := Option.some.inj (hrun'.symm.trans hrun)
      have h := hall x hs.1 hs.2
      rw [heq, hch] at h
      exact expected_eq_nil.mp h.symm
    · intro hall
      exact ⟨st', hrun, fun x hlive hthird => (hch x).trans (expected_eq_nil.mpr (hall x ⟨hlive, hthird⟩)).symm⟩
  have hv := (commitCsn_spec hst.wf.cookie op.commit).1
  by_cases hctx : op.tag = .modify ∧ op.ctxUpdate.isSome
  · have hwf : (withCookie st (commitCsn st.si.cookie op.commit).1).si.Wf := ⟨hst.wf.nodup, hst.wf.search, hv⟩
    obtain ⟨st', hrun, -, -, -, hch⟩ := @newCtxcsn_spec cfg _ hwf hst.sctxcsn (op.ctxUpdate.getD [])
      (commitCsn st.si.cookie op.commit).2
    refine hnothing st' ?_ (fun x => (hch x).trans (hst.changes x)) (.inl hctx)
    unfold opResponse
    dsimp only
    rw [if_pos hctx, hrun]
  by_cases hrep : op.dontReplicate = true
  · refine hnothing (withCookie st (commitCsn st.si.cookie op.commit).1) ?_ hst.changes (.inr hrep)
    unfold opResponse
    dsimp only
    rw [if_neg hctx, if_pos hrep]
  have hrep : op.dontReplicate = false := by simpa using hrep
  obtain ⟨st1, hrun1, hd⟩ := @opResponse_replicated cfg op st db' late hst hctx hrep
  unfold Notified
  rw [hrun1]
  by_cases hdel : op.tag = .delete
  · obtain ⟨st', hrun, hall⟩ := @dispatch_delete cfg op st1 db' late hd.ready hdel (hd.info hdel)
    have hafter : ∀ x, op.after cfg db' st.si x = false := by
      intro x
      have hget : db'.get (op.fdn false) = none := by
        rw [← hdone.deleted hdel]
        simp [WriteOp.fdn, hdel]
      unfold WriteOp.after sees
      rw [hget]
    have hyes : ∀ b a, Foreseen op b a := by
      intro b a
      unfold Foreseen
      rw [if_neg (by simp [hdel, hrep])]
      simp [hdel]
    refine ⟨fun _ x _ => hyes _ _, fun _ => ⟨st', hrun, fun x hlive hthird => ?_⟩⟩
    rw [hall x ((hd.served x).mpr ⟨hlive, hthird⟩), hd.smatches, hafter, ← hfound hrep x ⟨hlive, hthird⟩]
    by_cases hx : x ∈ st.opc.smatches <;> simp [hx, expected]
  have hbefore : ∀ x, op.tag = .add → op.before cfg db st.si x = false := by
    intro x hadd
    unfold WriteOp.before sees
    rw [(hdone.added hadd).1]
  have hforeseen : ∀ x, Foreseen op (op.before cfg db st.si x) (op.after cfg db' st.si x) ↔
      combined op.tag (op.before cfg db st.si x) (op.after cfg db' st.si x) = true :=
    fun x => foreseen_iff hctx hrep hdel (hbefore x)
  have hafter := @after_eq cfg op db db' hdone st.si
  simp only [hforeseen]
  cases @dispatch_send cfg op st1 db' late hd.ready hdel with
  | inl hok =>
    obtain ⟨st', hrun, hall⟩ := hok
    cases htarget : op.target false db' with
    | some e =>
      have hboth : ∀ x, Served op db' late st x →
          combined op.tag (op.before cfg db st.si x) (op.after cfg db' st.si x) = true ∧
          st'.opc.changes x = expected (op.before cfg db st.si x) (op.after cfg db' st.si x) := by
        intro x hs
        have h := (hall x ((hd.served x).mpr hs)).2 e htarget
        rw [hd.smatches, hfound hrep x hs, hd.seen, hd.changes, List.append_nil] at h
        rw [hafter, htarget]
        exact h
      refine ⟨fun _ x hs => (hboth x hs).1, fun _ => ⟨st', hrun, fun x hlive hthird => (hboth x ⟨hlive, hthird⟩).2⟩⟩
    | none =>
      -- no entry is there any more: only an operation that no search saw is right
      have htag : op.tag = .modify ∨ op.tag = .extended := by
        cases htag : op.tag with
        | add => simp [WriteOp.target, htag] at htarget
        | delete => exact absurd htag hdel
        | modify => exact .inl rfl
        | modrdn =>
          have hsome := hdone.renamed htag
          simp [WriteOp.target, htag] at htarget
          simp [htarget] at hsome
        | extended => exact .inr rfl
      have hch : ∀ x, Served op db' late st x → st'.opc.changes x = [] := fun x hs =>
        ((hall x ((hd.served x).mpr hs)).1 htarget).trans (hd.changes x)
      have hcomb : ∀ b, combined op.tag b false = true ↔ [] = expected b false := by
        intro b
        cases htag with
        | inl htag => cases b <;> simp [combined, expected, htag]
        | inr htag => cases b <;> simp [combined, expected, htag]
      simp only [hafter, htarget, hcomb]
      constructor
      · intro ⟨st'', hrun', hright⟩ x hs
        have heq : st'' = st' := Option.some.inj (hrun'.symm.trans hrun)
        rw [← hch x hs, ← heq]
        exact hright x hs.1 hs.2
      · intro hright
        exact ⟨st', hrun, fun x hlive hthird => (hch x ⟨hlive, hthird⟩).trans (hright x ⟨hlive, hthird⟩)⟩
  | inr hbad =>
    obtain ⟨hnone, e, x, htarget, hs, hno⟩ := hbad
    have hs' := (hd.served x).mp hs
    rw [hd.smatches, hfound hrep x hs', hd.seen] at hno
    refine ⟨fun ⟨st', hrun, _⟩ => absurd (hnone.symm.trans hrun) (by simp), fun hall => ?_⟩
    have h := hall x hs'
    rw [hafter, htarget] at h
    exact absurd (hno.symm.trans h) (by simp)

/-! ## The pass before the write -/

theorem SyncOp.Later.refl (so : SyncOp) : so.Later so := ⟨rfl, rfl, rfl, rfl, rfl, rfl, id, id⟩

theorem SyncOp.Later.trans {so₁ so₂ so₃ : SyncOp} (h₁ : so₁.Later so₂) (h₂ : so₂.Later so₃) : so₁.Later so₃ :=
  ⟨h₂.sid.trans h₁.sid, h₂.reqNdn.trans h₁.reqNdn, h₂.base.trans h₁.base, h₂.eid.trans h₁.eid, h₂.scope.trans h₁.scope,
    h₂.effFilter.trans h₁.effFilter, fun h => h₂.abandoned (h₁.abandoned h), fun h => h₂.dead (h₁.dead h)⟩

theorem sees_later {si si' : Provider} {x : Nat} (h : (si.heap x).Later (si'.heap x)) (e : Option SyncEntry) (dn : List Byte) :
    sees cfg si' x e dn = sees cfg si x e dn := by
  unfold sees searchTest SyncOp.inScope
  rw [h.scope, h.base, h.effFilter]

theorem gone_of_later {si si' : Provider} {x : Nat} (hops : x ∈ si'.ops → x ∈ si.ops)
    (h : (si.heap x).Later (si'.heap x)) (hhere : si'.gone x = false) : si.gone x = false := by
  obtain ⟨hx, hab, hdead⟩ := Provider.gone_eq_false.mp hhere
  refine Provider.gone_eq_false.mpr ⟨hops hx, ?_, ?_⟩
  · by_contra hne
    simp [h.abandoned (by simpa using hne)] at hab
  · by_contra hne
    simp [h.dead (by simpa using hne)] at hdead

/-- A round before the write touches only its own search, which stays the same search. -/
structure SaveStep (cfg : NotifyConfig) (op : WriteOp) (e : SyncEntry) (i : Nat) (st st' : Pass) : Prop where
  heap : ∀ x ≠ i, st'.si.heap x = st.si.heap x
  ops : ∀ x ≠ i, x ∈ st'.si.ops ↔ x ∈ st.si.ops
  smatches : ∀ x ≠ i, x ∈ st'.opc.smatches ↔ x ∈ st.opc.smatches
  linked : i ∈ st'.si.ops → i ∈ st.si.ops
  later : i ∈ st'.si.ops → (st.si.heap i).Later (st'.si.heap i)
  found : st'.si.gone i = false → Third op (st.si.heap i) →
    (i ∈ st'.opc.smatches ↔ sees cfg st.si i (some e) op.ndn = true)

theorem Started.kill {so : SyncOp} (hst : Started op st) (hi : i ∈ st.si.ops) (hso : so.Wf)
    (hdead : so.abandoned = true ∨ so.dead = true) (hmatch : so.opMatch = (st.si.heap i).opMatch)
    (hinuse : so.inuse = (st.si.heap i).inuse) :
    ∃ si', (st.si.set i so).killLocked i = some si' ∧ Started op { st with si := si' } ∧
      (∀ x ≠ i, si'.heap x = st.si.heap x) ∧ (∀ x ≠ i, x ∈ si'.ops ↔ x ∈ st.si.ops) ∧ si'.gone i = true ∧
      (i ∈ si'.ops → si'.heap i = so) := by
  obtain ⟨si', hkill, hwf, hck, hheap, hops, hsame, hgone, hself⟩ :=
    @Provider.killLocked_spec i (st.si.set i so) (hst.wf.set hso) hi (by simpa using hdead)
  have hheap : ∀ x ≠ i, si'.heap x = st.si.heap x := by
    intro x hx
    rw [hheap x hx]
    exact Provider.set_heap_ne hx
  refine ⟨si', hkill, ⟨hst.osid, hst.rsid, hwf, hst.nodup, ?_, hst.se, hst.info, hst.sctxcsn⟩, hheap, hops, hgone, ?_⟩
  · intro x hx
    by_cases hxi : x = i
    · rw [hxi]
      dsimp only
      rw [hsame.1, hsame.2, Provider.set_heap_self, hmatch, hinuse]
      exact hst.held i (hxi ▸ hx)
    · dsimp only
      rw [hheap x hxi]
      exact hst.held x hx
  · intro hi'
    rw [hself hi']
    exact Provider.set_heap_self

theorem save_step (hst : Started op st) (hnew : i ∉ st.opc.smatches) :
    ∃ st', visitSearch cfg op true db late e st i = some st' ∧ Started op st' ∧ SaveStep cfg op e i st st' := by
  -- a round that leaves the search out
  have hskip : (st.si.gone i = true ∨ ¬ Third op (st.si.heap i)) → ∃ st', some st = some st' ∧ Started op st' ∧
      SaveStep cfg op e i st st' := by
    intro hnot
    refine ⟨st, rfl, hst, ⟨fun _ _ => rfl, fun _ _ => Iff.rfl, fun _ _ => Iff.rfl, id, fun _ => .refl _, ?_⟩⟩
    intro hhere hthird
    cases hnot with
    | inl hgone => simp [hhere] at hgone
    | inr hnot => exact absurd hthird hnot
  unfold visitSearch
  dsimp only
  by_cases hgone : st.si.gone i = true
  · rw [if_pos hgone]
    exact hskip (.inl hgone)
  obtain ⟨hi, hab, hdead⟩ := Provider.gone_eq_false.mp (by simpa using hgone)
  have hso := hst.wf.search i hi
  rw [if_neg hgone, if_neg (by simp [hso.opSearch]), hst.osid, hst.rsid]
  by_cases horig : op.tag ≠ .delete ∧ 0 < op.osid ∧ op.osid = (st.si.heap i).sid
  · rw [if_pos horig]
    exact hskip (.inr fun h => h.1 horig.2)
  rw [if_neg horig]
  by_cases hrelay : 0 < op.rsid ∧ op.rsid = (st.si.heap i).sid
  · rw [if_pos hrelay]
    exact hskip (.inr fun h => h.2 hrelay)
  rw [if_neg hrelay]
  -- a round that kills the search
  have hkilled : ∀ so : SyncOp, so.Wf → (so.abandoned = true ∨ so.dead = true) → so.opMatch = (st.si.heap i).opMatch →
      so.inuse = (st.si.heap i).inuse → (st.si.heap i).Later so →
      ∃ st', ((st.si.set i so).killLocked i).map (fun si => ({ st with si := si } : Pass)) = some st' ∧ Started op st' ∧
        SaveStep cfg op e i st st' := by
    intro so hwf hdead hmatch hinuse hlater
    obtain ⟨si', hkill, hst', hheap, hops, hgone', hself⟩ := hst.kill hi hwf hdead hmatch hinuse
    rw [hkill]
    refine ⟨_, rfl, hst', ⟨hheap, hops, fun _ _ => Iff.rfl, fun _ => hi, fun h => by rw [hself h]; exact hlater, ?_⟩⟩
    intro hhere
    simp [hgone'] at hhere
  by_cases hbase : (st.si.heap i).HasBase db
  · rw [SyncOp.findbase_of_base hbase]
    dsimp only
    rw [if_pos rfl]
    unfold visitSave
    dsimp only
    rw [Provider.set_heap_self]
    have hfdn : op.fdn true = op.ndn := by simp [WriteOp.fdn]
    rw [hfdn]
    by_cases hlate : (st.si.heap i).inScope op.ndn = true ∧ late i = true
    · rw [if_pos hlate, Provider.set_set]
      exact hkilled _ ⟨hso.filter, hso.eid, hso.opSearch, hso.opMatch, hso.playback, by simp⟩ (.inl rfl) rfl rfl
        ⟨rfl, rfl, rfl, rfl, rfl, rfl, fun _ => rfl, id⟩
    rw [if_neg hlate]
    have htest : searchTest cfg i { st.si.heap i with findBase := false } e = searchTest cfg i (st.si.heap i) e := rfl
    by_cases hsees : (st.si.heap i).inScope op.ndn = true ∧ searchTest cfg i (st.si.heap i) e = .true
    · have hfirst : (st.si.heap i).opSearch = true ∧ ((st.si.heap i).inuse = 0 → (st.si.heap i).opMatch = false) :=
        ⟨hso.opSearch, fun h => by rw [hso.opMatch, h]; rfl⟩
      rw [if_pos ⟨hsees.1, htest ▸ hsees.2⟩, if_pos hfirst, Provider.set_set]
      refine ⟨_, rfl, ⟨hst.osid, hst.rsid, hst.wf.set ?_, List.nodup_cons.mpr ⟨hnew, hst.nodup⟩, ?_, hst.se, hst.info,
        hst.sctxcsn⟩, ⟨fun x hx => Provider.set_heap_ne hx, fun _ _ => Iff.rfl, ?_, fun _ => hi, fun _ => ?_, ?_⟩⟩
      · exact ⟨hso.filter, hso.eid, hso.opSearch, by simp, hso.playback, hso.wroteBase⟩
      · intro x hx
        by_cases hxi : x = i
        · simp [hxi]
        · simpa [hxi] using hst.held x ((List.mem_cons.mp hx).resolve_left hxi)
      · intro x hx
        simp [hx]
      · dsimp only
        rw [Provider.set_heap_self]
        exact ⟨rfl, rfl, rfl, rfl, rfl, rfl, id, id⟩
      · intro _ _
        simp [sees, hsees.1, hsees.2]
    · rw [if_neg fun h => hsees ⟨h.1, htest ▸ h.2⟩]
      refine ⟨_, rfl, ⟨hst.osid, hst.rsid, hst.wf.set hso.found, hst.nodup, ?_, hst.se, hst.info, hst.sctxcsn⟩,
        ⟨fun x hx => Provider.set_heap_ne hx, fun _ _ => Iff.rfl, fun _ _ => Iff.rfl, fun _ => hi, fun _ => ?_, ?_⟩⟩
      · intro x hx
        by_cases hxi : x = i
        · exact absurd (hxi ▸ hx) hnew
        · simpa [hxi] using hst.held x hx
      · dsimp only
        rw [Provider.set_heap_self]
        exact ⟨rfl, rfl, rfl, rfl, rfl, rfl, id, id⟩
      · intro _ _
        simp only [hnew, sees, Bool.and_eq_true, decide_eq_true_eq, false_iff]
        exact hsees
  · rw [SyncOp.findbase_of_lost hbase hso.eid]
    exact hkilled _ hso.lost (.inr rfl) rfl rfl ⟨rfl, rfl, rfl, rfl, rfl, rfl, id, fun _ => rfl⟩

theorem save_run {l : List Nat} (hst : Started op st) (hl : l.Nodup) (hnew : ∀ x ∈ l, x ∉ st.opc.smatches) :
    ∃ st', l.foldlM (visitSearch cfg op true db late e) st = some st' ∧ Started op st' ∧
      (∀ x ∈ st'.si.ops, x ∈ st.si.ops ∧ (st.si.heap x).Later (st'.si.heap x)) ∧
      (∀ x ∉ l, st'.si.heap x = st.si.heap x ∧ (x ∈ st'.si.ops ↔ x ∈ st.si.ops) ∧
        (x ∈ st'.opc.smatches ↔ x ∈ st.opc.smatches)) ∧
      ∀ x ∈ l, st'.si.gone x = false → Third op (st.si.heap x) →
        (x ∈ st'.opc.smatches ↔ sees cfg st.si x (some e) op.ndn = true) := by
  induction l generalizing st with
  | nil => exact ⟨st, rfl, hst, fun x hx => ⟨hx, .refl _⟩, fun _ _ => ⟨rfl, Iff.rfl, Iff.rfl⟩, by simp⟩
  | cons i l ih =>
    obtain ⟨hi, hl⟩ := List.nodup_cons.mp hl
    have hne : ∀ x ∈ l, x ≠ i := fun x hx hxi => hi (hxi ▸ hx)
    obtain ⟨st1, hrun1, hst1, hs⟩ := @save_step cfg op st i db late e hst (hnew i (by simp))
    obtain ⟨st', hrun, hst', hlater, hother, hfound⟩ := ih hst1 hl fun x hx hmem =>
      hnew x (mem_cons_of_mem _ hx) ((hs.smatches x (hne x hx)).mp hmem)
    rw [foldlM_cons, hrun1]
    refine ⟨st', hrun, hst', ?_, ?_, ?_⟩
    · intro x hx
      obtain ⟨hx1, hl1⟩ := hlater x hx
      by_cases hxi : x = i
      · subst hxi
        exact ⟨hs.linked hx1, (hs.later hx1).trans hl1⟩
      · rw [hs.heap x hxi] at hl1
        exact ⟨(hs.ops x hxi).mp hx1, hl1⟩
    · intro x hx
      rw [mem_cons, not_or] at hx
      obtain ⟨h1, h2, h3⟩ := hother x hx.2
      rw [h1, h2, h3, hs.heap x hx.1, hs.ops x hx.1, hs.smatches x hx.1]
      exact ⟨rfl, Iff.rfl, Iff.rfl⟩
    · intro x hx hhere hthird
      by_cases hxi : x = i
      · subst hxi
        obtain ⟨h1, h2, h3⟩ := hother x hi
        rw [h3]
        refine hs.found ?_ hthird
        unfold Provider.gone at hhere ⊢
        rwa [h1, show decide (x ∉ st'.si.ops) = decide (x ∉ st1.si.ops) by simp [h2]] at hhere
      · have h := hfound x ((List.mem_cons.mp hx).resolve_left hxi) hhere (by rw [hs.heap x hxi]; exact hthird)
        rw [h]
        unfold sees
        rw [hs.heap x hxi]

theorem opMod_spec {si : Provider} (hwf : si.Wf) (hadd : op.tag = .add → db.get op.ndn = none) :
    ∃ st, opMod cfg op db late si = some st ∧ Started op st ∧
      (∀ x ∈ st.si.ops, x ∈ si.ops ∧ (si.heap x).Later (st.si.heap x)) ∧
      (op.dontReplicate = false → ∀ x, st.si.gone x = false → Third op (st.si.heap x) →
        (x ∈ st.opc.smatches ↔ op.before cfg db st.si x = true)) := by
  have hst : Started op ⟨si, ⟨[], none, [], [], none, none, op.osid, op.rsid, false, none⟩⟩ :=
    ⟨rfl, rfl, hwf, nodup_nil, by simp, rfl, rfl, rfl⟩
  have hlater : ∀ x ∈ si.ops, x ∈ si.ops ∧ (si.heap x).Later (si.heap x) := fun x hx => ⟨hx, .refl _⟩
  unfold opMod
  dsimp only
  by_cases hrep : op.dontReplicate = true
  · rw [if_pos hrep]
    exact ⟨_, rfl, hst, hlater, by simp [hrep]⟩
  rw [if_neg hrep]
  by_cases hpass : (si.ops ≠ [] ∨ cfg.logs) ∧ op.tag ≠ .add
  · rw [if_pos hpass]
    unfold matchops
    have htarget : op.target true db = db.get op.ndn := by simp [WriteOp.target, WriteOp.fdn, hpass.2]
    rw [htarget]
    cases hget : db.get op.ndn with
    | none => exact ⟨_, rfl, hst, hlater, fun _ x _ _ => by simp [WriteOp.before, sees, hget]⟩
    | some e =>
      dsimp only
      rw [if_pos rfl]
      obtain ⟨hsm, hosid, hrsid, hcsn, hinfo, hse⟩ := noteEntry_fields op true e
        ⟨[], none, [], [], none, none, op.osid, op.rsid, false, none⟩
      have hst' : Started op ⟨si, noteEntry op true e ⟨[], none, [], [], none, none, op.osid, op.rsid, false, none⟩⟩ :=
        ⟨hosid, hrsid, hwf, hsm ▸ nodup_nil, by simp [hsm], hse, hinfo, hcsn⟩
      obtain ⟨st', hrun, hst', hlater', hother, hfound⟩ := @save_run cfg op _ db late e si.ops hst' hwf.nodup (by simp [hsm])
      refine ⟨st', hrun, hst', hlater', fun _ x hhere hthird => ?_⟩
      obtain ⟨hx, hl⟩ := hlater' x (Provider.gone_eq_false.mp hhere).1
      have hthird : Third op (si.heap x) := by
        unfold Third at hthird ⊢
        rwa [hl.sid] at hthird
      rw [hfound x hx hhere hthird]
      unfold WriteOp.before
      rw [hget, sees_later hl]
  · rw [if_neg hpass]
    refine ⟨_, rfl, hst, hlater, fun _ x hhere _ => ?_⟩
    have hx := (Provider.gone_eq_false.mp hhere).1
    by_cases htag : op.tag = .add
    · simp [WriteOp.before, sees, hadd htag]
    · have hops : si.ops = [] := by
        by_contra hne
        exact hpass ⟨.inl hne, htag⟩
      simp [hops] at hx

/-- No assertion fails in the pass before a write. After it, with whatever other threads did to the searches in
between: no assertion fails and every live search, other than that of the originator or the relayer, gets the message it
should, exactly if the operation is foreseen for each of them. -/
theorem syncprov_notifies_iff (cfg : NotifyConfig) (op : WriteOp) {db db' : EntryDb} {si : Provider} (hwf : si.Wf)
    (hdone : Performed op db db') (late : Nat → Bool) :
    ∃ st, opMod cfg op db late si = some st ∧ ∀ si' late', Provider.Later st.opc.smatches st.si si' →
      (Notified cfg op db db' late' ⟨si', st.opc⟩ ↔
        ∀ i, Live op db' late' si' i → Third op (si'.heap i) →
          Foreseen op (op.before cfg db si' i) (op.after cfg db' si' i)) := by
  obtain ⟨st, hrun, hst, -, hfound⟩ := @opMod_spec cfg op db late si hwf fun h => (hdone.added h).1
  refine ⟨st, hrun, fun si' late' hlater => ?_⟩
  have hst' : Started op ⟨si', st.opc⟩ :=
    ⟨hst.osid, hst.rsid, hlater.wf, hst.nodup, hlater.held, hst.se, hst.info, hst.sctxcsn⟩
  rw [@opResponse_spec cfg op _ db late' db' hst' hdone]
  · exact ⟨fun h i hlive hthird => h i ⟨hlive, hthird⟩, fun h i hs => h i hs.1 hs.2⟩
  · intro hrep x hs
    have hx := (Provider.gone_eq_false.mp hs.1.here).1
    have hl := hlater.search x hx
    have hthird : Third op (st.si.heap x) := by
      have h := hs.2
      unfold Third at h ⊢
      rwa [hl.sid] at h
    have h := hfound hrep x (gone_of_later (hlater.ops x) hl hs.1.here) hthird
    unfold WriteOp.before at h ⊢
    rw [sees_later hl, Bool.eq_iff_iff, decide_eq_true_eq]
    exact h

end

def cnDesc : AttributeDescription := (AttributeType.root "cn").ad

def anyAttr : NotifyConfig where
  contextdn := []
  logs := false
  check := true
  leaf := fun _ e _ => if e.attrs = [] then .false else .true
  leaf_ne := by
    intro i e f
    split_ifs <;> simp

/-- The entry `a`, with its attributes. -/
def entryA (attrs : List (AttributeDescription × List Value)) : SyncEntry := ⟨2, [97], [97], none, false, none, attrs⟩

def dbOf (e : SyncEntry) : EntryDb where
  get := fun dn => if dn = e.ndn then some e else none
  deref := fun _ => none

/-- A consumer with SID 2 that searches below the root for `(cn=*)`. -/
def cnSearch : SyncOp where
  sid := 2
  reqNdn := []
  base := []
  eid := some 1
  scope := .subtree
  filter := .present cnDesc
  abandoned := false
  detached := true
  wroteBase := false
  findBase := false
  fixFilter := false
  lostBase := false
  dead := false
  playback := false
  opSearch := true
  opMatch := false
  inuse := 0

def oneSearch : Provider := ⟨fun _ => cnSearch, [0], ⟨-1, -1, []⟩⟩

/-- A modify of `a`. -/
def modifyA : WriteOp := ⟨.modify, [97], none, [], entryA [], none, none, false, none, none⟩

theorem oneSearch_wf : oneSearch.Wf := by
  refine ⟨by simp [oneSearch], ?_, ⟨List.Pairwise.nil, by simp [oneSearch]⟩⟩
  intro i _
  exact ⟨trivial, rfl, rfl, rfl, nofun, fun _ _ => rfl⟩

theorem modifyA_performed (db db' : EntryDb) : Performed modifyA db db' := ⟨nofun, nofun, nofun⟩

theorem syncprov_notifies_iff_modifyA :
    ∃ st, opMod anyAttr modifyA (dbOf (entryA [])) (fun _ => false) oneSearch = some st ∧
      ∀ si' late', Provider.Later st.opc.smatches st.si si' →
        (Notified anyAttr modifyA (dbOf (entryA [])) (dbOf (entryA [(cnDesc, [[1]])])) late' ⟨si', st.opc⟩ ↔
          ∀ i, Live modifyA (dbOf (entryA [(cnDesc, [[1]])])) late' si' i → Third modifyA (si'.heap i) →
            Foreseen modifyA (modifyA.before anyAttr (dbOf (entryA [])) si' i)
              (modifyA.after anyAttr (dbOf (entryA [(cnDesc, [[1]])])) si' i)) :=
  syncprov_notifies_iff anyAttr modifyA oneSearch_wf (modifyA_performed _ _) _

/-- A modify gives the entry a `cn`: the search should get an add, but an assertion fails. -/
theorem syncprov_notifies_intoFilter :
    Performed modifyA (dbOf (entryA [])) (dbOf (entryA [(cnDesc, [[1]])])) ∧ oneSearch.Wf ∧
    Live modifyA (dbOf (entryA [(cnDesc, [[1]])])) (fun _ => false) oneSearch 0 ∧ Third modifyA (oneSearch.heap 0) ∧
    modifyA.before anyAttr (dbOf (entryA [])) oneSearch 0 = false ∧
    modifyA.after anyAttr (dbOf (entryA [(cnDesc, [[1]])])) oneSearch 0 = true ∧
    ((opMod anyAttr modifyA (dbOf (entryA [])) (fun _ => false) oneSearch).bind
      (opResponse anyAttr modifyA (dbOf (entryA [(cnDesc, [[1]])])) fun _ => false)) = none := by
  refine ⟨modifyA_performed _ _, oneSearch_wf, ⟨by decide, nofun, fun _ => rfl⟩, ⟨by decide, by decide⟩, by decide, by decide, ?_⟩
  exact Option.isNone_iff_eq_none.mp (by decide)

end Sync
end ReOpenLDAP
